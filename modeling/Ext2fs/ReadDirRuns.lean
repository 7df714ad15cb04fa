import Ext2fs.ReadDir

/-!
# Reading a whole directory

A well-formed directory is read by a sequence of calls, each from the offset that the one before has
left.

* `Place` — an offset at which a record starts, with the entries from there on;
* `Delivered` — what a walk has copied out of the entries in front of it, and why it has ended;
* `walk_delivers`, `readdirLoop_delivers`, `readdir_delivers` — a block, the blocks and a call;
* `Reads` — a sequence of calls;
* **`readdirs_deliver`** — every call goes on where the one before has stopped, each entry is delivered
  once and in order, and the end is flagged unless the last entry has filled up the buffer.
-/

namespace Ext2fs

open Bytes

/-- The space of entries in a buffer. -/
def direntSpace (env : ReaddirEnv) (es : List Dirent) : ℕ :=
  (es.map fun e => direntReclen env e.name.length).sum

/-- The first of the entries does not fit. -/
def Blocked (env : ReaddirEnv) (resid : ℤ) (es : List Dirent) : Prop :=
  ∃ e ∈ es.head?, resid < direntReclen env e.name.length

/-- How a walk ends at an entry that does not fit. -/
def fullEnd (startresid resid : ℤ) : WalkEnd := if resid = startresid then .failed .einval else .justReturn

/-- Of the entries `es` in front of a walk it has copied out the first ones, and `rest` is left: it has
ended at an entry that does not fit, or with a full buffer, or at its last record. -/
structure Delivered (env : ReaddirEnv) (startresid : ℤ) (es : List Dirent) (out : List UserDirent) (resid : ℤ)
    (e : WalkEnd) (out' : List UserDirent) (resid' : ℤ) (taken rest : List Dirent) (through : Prop) : Prop where
  split : es = taken ++ rest
  out : out' = out ++ taken.map userDirent
  resid : resid' = resid - direntSpace env taken
  ends : (e = .ok ∧ (resid' ≤ 0 ∨ through)) ∨ (Blocked env resid' rest ∧ e = fullEnd startresid resid')

/-- A record starts at the offset, or the directory ends there; with the entries from there on. -/
inductive Place (fs : MExt2fs) (d : Directory) (blocks : List (List Dirent)) : ℕ → List Dirent → Prop
  | record {k o : ℕ} {pre post : List Dirent} (hc : Cursor fs d.data blocks k o pre post)
      (hlt : o < (k + 1) * fs.bsize) : Place fs d blocks o (post ++ (blocks.drop (k + 1)).flatten)
  | stop : Place fs d blocks d.size []

/-- The blocks of the directory are read, and the entries are copied out, without errors. -/
structure ReaddirEnv.Works (env : ReaddirEnv) : Prop where
  read : ∀ k, env.read k = none
  uiomove : ∀ n, env.uiomove n = none

/-- A sequence of calls with the offset at which it starts: each starts where the one before has stopped,
and its buffer can hold the next entry. -/
inductive Reads (fs : MExt2fs) (d : Directory) (blocks : List (List Dirent)) :
    ℕ → List ReaddirRes → Prop
  | nil (o : ℕ) : Reads fs d blocks o []
  | call {o : ℕ} {env : ReaddirEnv} {resid : ℤ} {r : ReaddirRes} {rs : List ReaddirRes} (hworks : env.Works)
      (hholds : ∀ e es, Place fs d blocks o (e :: es) → direntReclen env e.name.length ≤ resid)
      (hr : ext2Readdir fs env d o resid = some r) (hrs : Reads fs d blocks r.offset rs) :
      Reads fs d blocks o (r :: rs)

section

variable {fs : MExt2fs} {env : ReaddirEnv} {d : Directory} {blocks : List (List Dirent)} {es es' : List Dirent}
  {resid r : ℤ} {k o s n dp fuel : ℕ} {pre post : List Dirent} {out : List UserDirent} {touched : List Touch}
  {m : Mem} {B : DirBlock}

/-! ### A record -/

theorem direntReclen_pos (env : ReaddirEnv) (n : ℕ) : 0 < direntReclen env n := by
  unfold direntReclen
  omega

/-- The checks of the walk let a record through that keeps the rules. -/
theorem Record.passes (h : Record B.m (B.boff + dp))
    (hend : dp + e2dReclen B.m (B.boff + dp) ≤ B.readcnt) :
    ¬(e2dReclen B.m (B.boff + dp) ≤ 6 ∨ B.readcnt < dp + e2dReclen B.m (B.boff + dp)) ∧
      ¬e2dReclen B.m (B.boff + dp) < 6 + e2dNamlen B.m (B.boff + dp) := by
  have hpos := h.pos
  have hfits := h.fits
  have hname := dirRecLen_ge (e2dNamlen B.m (B.boff + dp))
  omega

/-- A record in front of the offset of the call, or one that is not in use, is passed over. -/
theorem walkRound_over (h : Record B.m (B.boff + dp))
    (hend : dp + e2dReclen B.m (B.boff + dp) ≤ B.readcnt)
    (hover : B.boff + dp < B.startoffset ∨ e2dIno B.m (B.boff + dp) = 0) : ∃ t,
    walkRound env B ⟨dp, resid, out, touched⟩ = (⟨dp + e2dReclen B.m (B.boff + dp), resid, out, t⟩, none) := by
  obtain ⟨hlen, hname⟩ := h.passes hend
  unfold walkRound
  simp only
  rw [if_neg hlen, if_neg hname]
  split
  · exact ⟨_, rfl⟩
  · next hstart =>
    rw [if_pos (hover.resolve_left hstart)]
    exact ⟨_, rfl⟩

/-- An entry is copied out, if there is room for it. -/
theorem walkRound_entry (h : Record B.m (B.boff + dp))
    (hend : dp + e2dReclen B.m (B.boff + dp) ≤ B.readcnt)
    (hworks : env.Works) (hstart : B.startoffset ≤ B.boff + dp) (hino : e2dIno B.m (B.boff + dp) ≠ 0) : ∃ t,
    walkRound env B ⟨dp, resid, out, touched⟩ =
      if resid < direntReclen env (direntAt B.m (B.boff + dp)).name.length then
        (⟨dp, resid, out, t⟩, some (fullEnd B.startresid resid))
      else
        (⟨dp + e2dReclen B.m (B.boff + dp), resid - direntReclen env (direntAt B.m (B.boff + dp)).name.length,
          out ++ [userDirent (direntAt B.m (B.boff + dp))], t⟩, none) := by
  obtain ⟨hlen, hname⟩ := h.passes hend
  have hnamlen : (direntAt B.m (B.boff + dp)).name.length = e2dNamlen B.m (B.boff + dp) := e2dName_length _ _
  rw [hnamlen]
  unfold walkRound
  simp only
  rw [if_neg hlen, if_neg hname, if_neg (by omega), if_neg hino, hworks.uiomove]
  split
  · exact ⟨_, rfl⟩
  · have hlen' : (userDirent (direntAt B.m (B.boff + dp))).d_name.length = e2dNamlen B.m (B.boff + dp) := hnamlen
    simp only [DirWalk.copied, DirWalk.next, DirWalk.touch, hlen']
    exact ⟨_, rfl⟩

/-! ### A block -/

/-- The records in front of the offset of the call are passed over. -/
theorem walk_over {a b : ℕ} (h : Chain B.m a b es) (hresid : 0 < resid) {dp' : ℕ} (ha : a = B.boff + dp)
    (hb : b = B.boff + dp') (hle : dp' ≤ B.readcnt) (hstart : b ≤ B.startoffset) :
    ∃ n t, n ≤ dp' - dp ∧ ∀ fuel, walk env B (fuel + n) ⟨dp, resid, out, touched⟩ =
      walk env B fuel ⟨dp', resid, out, t⟩ := by
  induction h generalizing dp touched with
  | nil o =>
    obtain rfl : dp = dp' := by omega
    exact ⟨0, touched, Nat.zero_le _, fun _ => rfl⟩
  | @cons o stop es hr hrest ih =>
    subst ha hb
    have hpos := hr.pos
    have hnext := hrest.le
    obtain ⟨t, hround⟩ := @walkRound_over env resid dp out touched B hr (by omega) (.inl (by omega))
    have hplace : B.boff + dp + e2dReclen B.m (B.boff + dp) = B.boff + (dp + e2dReclen B.m (B.boff + dp)) :=
      Nat.add_assoc _ _ _
    obtain ⟨n, t', hn, hwalk⟩ := @ih _ t hplace rfl hstart
    refine ⟨n + 1, t', by omega, fun fuel => ?_⟩
    rw [← Nat.add_assoc]
    conv_lhs => unfold walk
    rw [if_pos ⟨hresid, by show dp < B.readcnt; omega⟩, hround]
    exact hwalk fuel

/-- **The walk over a block** from one of its records on. -/
theorem walk_delivers (hm : B.m = d.data) (hboff : B.boff = k * fs.bsize) (hcnt : B.readcnt = fs.bsize)
    (hworks : env.Works) (hc : Cursor fs d.data blocks k (k * fs.bsize + dp) pre post) (hle : dp ≤ fs.bsize)
    (hstart : B.startoffset ≤ k * fs.bsize + dp) (hfuel : fs.bsize < dp + fuel) :
    ∃ w' e taken rest pre', walk env B fuel ⟨dp, resid, out, touched⟩ = some (w', e) ∧
      Cursor fs d.data blocks k (k * fs.bsize + w'.dp) pre' rest ∧ w'.dp ≤ fs.bsize ∧ dp ≤ w'.dp ∧
      Delivered env B.startresid post out resid e w'.out w'.resid taken rest (w'.dp = fs.bsize) := by
  induction fuel generalizing dp resid out touched pre post with
  | zero => omega
  | succ fuel ih =>
    by_cases hgo : 0 < resid ∧ dp < fs.bsize
    · have hlt : k * fs.bsize + dp < (k + 1) * fs.bsize := by
        rw [Nat.succ_mul]
        omega
      obtain ⟨hr, post', rfl, hend, hc'⟩ := hc.next hlt
      rw [Nat.succ_mul] at hend
      have hpos := hr.pos
      have hr' : Record B.m (B.boff + dp) := by rwa [hm, hboff]
      have hend' : dp + e2dReclen B.m (B.boff + dp) ≤ B.readcnt := by
        rw [hm, hboff, hcnt]
        omega
      have hplace : k * fs.bsize + dp + e2dReclen d.data (k * fs.bsize + dp) =
          k * fs.bsize + (dp + e2dReclen d.data (k * fs.bsize + dp)) := Nat.add_assoc _ _ _
      rw [hplace] at hc'
      have hstep : ∀ {w₁ x}, walkRound env B ⟨dp, resid, out, touched⟩ = (w₁, x) →
          walk env B (fuel + 1) ⟨dp, resid, out, touched⟩ =
            x.elim (walk env B fuel w₁) fun e => some (w₁, e) := by
        intro w₁ x hround
        conv_lhs => unfold walk
        rw [if_pos ⟨hgo.1, by show dp < B.readcnt; omega⟩, hround]
        cases x <;> rfl
      by_cases hino : e2dIno d.data (k * fs.bsize + dp) = 0
      · obtain ⟨t, hround⟩ := @walkRound_over env resid dp out touched B hr' hend'
          (.inr (by rwa [hm, hboff]))
        rw [hm, hboff] at hround
        rw [hstep hround]
        have hlive : liveAt d.data (k * fs.bsize + dp) = [] := if_pos hino
        rw [hlive, List.append_nil] at hc'
        rw [hlive, List.nil_append]
        obtain ⟨w', e, taken, rest, pre', hwalk, hcur, hle', hge, hdel⟩ :=
          @ih resid _ _ _ out t hc' (by omega) (by omega) (by omega)
        exact ⟨w', e, taken, rest, pre', hwalk, hcur, hle', by omega, hdel⟩
      · obtain ⟨t, hround⟩ := @walkRound_entry env resid dp out touched B hr' hend' hworks
          (by rwa [hboff]) (by rwa [hm, hboff])
        rw [hm, hboff] at hround
        have hlive : liveAt d.data (k * fs.bsize + dp) = [direntAt d.data (k * fs.bsize + dp)] := if_neg hino
        rw [hlive] at hc' hc ⊢
        split at hround
        · next hfull =>
          rw [hstep hround]
          refine ⟨_, _, [], _, _, rfl, hc, hle, le_refl _, rfl, by simp, ?_, .inr ⟨⟨_, rfl, hfull⟩, rfl⟩⟩
          simp [direntSpace]
        · next hroom =>
          rw [hstep hround]
          obtain ⟨w', e, taken, rest, pre', hwalk, hcur, hle', hge, hdel⟩ :=
            @ih _ _ _ _ _ t hc' (by omega) (by omega) (by omega)
          refine ⟨w', e, direntAt d.data (k * fs.bsize + dp) :: taken, rest, pre', hwalk, hcur, hle', by omega,
            ?_, ?_, ?_, hdel.ends⟩
          · rw [hdel.split]
            rfl
          · rw [hdel.out, List.append_assoc]
            rfl
          · rw [hdel.resid]
            simp only [direntSpace, List.map_cons, List.sum_cons]
            push_cast
            ring
    · have hdone : walk env B (fuel + 1) ⟨dp, resid, out, touched⟩ = some (⟨dp, resid, out, touched⟩, .ok) := by
        unfold walk
        rw [hcnt, if_neg hgo]
      refine ⟨_, _, [], post, pre, hdone, hc, hle, le_refl _, rfl, by simp, by simp [direntSpace], .inl ⟨rfl, ?_⟩⟩
      show resid ≤ 0 ∨ dp = fs.bsize
      omega

/-! ### The blocks -/

/-- The block of an offset in a well-formed directory. -/
theorem dirBlock_wf (hfrag : fs.fsize = fs.bsize) (hwf : d.Wf fs blocks) (hk : k < blocks.length)
    (hle : k * fs.bsize ≤ o)
    (hlt : o < (k + 1) * fs.bsize) : (dirBlock fs d s r o).boff = k * fs.bsize ∧
      (dirBlock fs d s r o).readcnt = fs.bsize := by
  have hblk : fs.lblkno o = k := Nat.div_eq_of_lt_le hle hlt
  have hsize : (k + 1) * fs.bsize ≤ d.size := by
    rw [hwf.size]
    exact Nat.mul_le_mul_right _ hk
  rw [Nat.succ_mul] at hsize
  unfold dirBlock
  simp only [hblk, hfrag]
  rw [if_neg (by omega)]
  exact ⟨trivial, rfl⟩

/-- Behind the last record of a block the next block starts, or the directory ends. -/
theorem Place.of_cursor (hwf : d.Wf fs blocks) (hc : Cursor fs d.data blocks k o pre post)
    (hle : o ≤ (k + 1) * fs.bsize) : Place fs d blocks o (post ++ (blocks.drop (k + 1)).flatten) := by
  rcases Nat.lt_or_ge o ((k + 1) * fs.bsize) with hlt | hge
  · exact .record hc hlt
  · obtain rfl : o = (k + 1) * fs.bsize := le_antisymm hle hge
    rw [hc.behind.eq_nil, List.nil_append]
    rcases Nat.lt_or_ge (k + 1) blocks.length with hk | hk
    · rw [List.drop_eq_getElem_cons hk, List.flatten_cons]
      refine .record (Cursor.start hwf hk) ?_
      rw [Nat.succ_mul (k + 1)]
      have := fs.bsize_pos
      omega
    · have hlen : blocks.length = k + 1 := le_antisymm hk hc.lt_length
      rw [List.drop_of_length_le hk, List.flatten_nil, ← hlen, ← hwf.size]
      exact .stop

/-- The walk over the block of a place, from the start of the block. -/
theorem walk_place (hfrag : fs.fsize = fs.bsize) (hwf : d.Wf fs blocks) (hworks : env.Works)
    (hresid : 0 < resid)
    (hc : Cursor fs d.data blocks k o pre post) (hlt : o < (k + 1) * fs.bsize)
    (hstart : s = o ∨ s ≤ o ∧ o = k * fs.bsize) : ∃ w' e taken rest,
    walk env (dirBlock fs d s r o) ((dirBlock fs d s r o).readcnt + 1) ⟨0, resid, out, touched⟩ = some (w', e) ∧
      Place fs d blocks ((dirBlock fs d s r o).boff + w'.dp) (rest ++ (blocks.drop (k + 1)).flatten) ∧
      Delivered env r post out resid e w'.out w'.resid taken rest
        (o < (dirBlock fs d s r o).boff + w'.dp ∧
          (dirBlock fs d s r o).boff + w'.dp = (k + 1) * fs.bsize) := by
  have hle := hc.before.le
  have hk := hc.lt_length
  obtain ⟨hboff, hcnt⟩ := @dirBlock_wf fs d blocks r k o s hfrag hwf hk hle hlt
  rw [Nat.succ_mul] at hlt
  have hplace : k * fs.bsize + (o - k * fs.bsize) = o := by omega
  -- the records in front of the offset
  have hskip : ∃ n t, n ≤ o - k * fs.bsize ∧ ∀ fuel,
      walk env (dirBlock fs d s r o) (fuel + n) ⟨0, resid, out, touched⟩ =
        walk env (dirBlock fs d s r o) fuel ⟨o - k * fs.bsize, resid, out, t⟩ := by
    rcases hstart with rfl | ⟨-, heq⟩
    · exact walk_over hc.before hresid (by rw [hboff, Nat.add_zero]) (by rw [hboff, hplace])
        (by rw [hcnt]; omega) (show s ≤ s from le_refl s)
    · exact ⟨0, touched, Nat.zero_le _, fun fuel => by rw [heq, Nat.sub_self, Nat.add_zero]⟩
  obtain ⟨n, t, hn, hskip⟩ := hskip
  have hfuel : (dirBlock fs d s r o).readcnt + 1 = fs.bsize + 1 - n + n := by
    rw [hcnt]
    omega
  rw [hfuel, hskip]
  have hs : (dirBlock fs d s r o).startoffset ≤ k * fs.bsize + (o - k * fs.bsize) := by
    show s ≤ _
    omega
  rw [← hplace] at hc
  obtain ⟨w', e, taken, rest, pre', hwalk, hcur, hdp, hge, hdel⟩ :=
    @walk_delivers fs env d blocks resid k (o - k * fs.bsize) (fs.bsize + 1 - n) pre post out t _ rfl hboff hcnt
      hworks hc (by omega) hs (by omega)
  refine ⟨w', e, taken, rest, hwalk, ?_, hdel.split, hdel.out, hdel.resid, hdel.ends.imp_left ?_⟩
  · rw [hboff]
    exact .of_cursor hwf hcur (by rw [Nat.succ_mul]; omega)
  · rintro ⟨hok, hend⟩
    refine ⟨hok, hend.imp_right fun hfull => ?_⟩
    rw [hboff, Nat.succ_mul]
    omega

theorem Blocked.append (h : Blocked env resid es) : Blocked env resid (es ++ es') := by
  obtain ⟨e, he, hlt⟩ := h
  cases es with
  | nil => cases he
  | cons x es => exact ⟨e, he, hlt⟩

theorem direntSpace_append (env : ReaddirEnv) (es es' : List Dirent) :
    direntSpace env (es ++ es') = direntSpace env es + direntSpace env es' := by
  simp [direntSpace]

/-- **The blocks**, from a place on. -/
theorem readdirLoop_delivers (hfrag : fs.fsize = fs.bsize) (hwf : d.Wf fs blocks) (hworks : env.Works)
    (hp : Place fs d blocks o es)
    (hstart : s = o ∨ s ≤ o ∧ fs.blkoff o = 0) (hfuel : d.size < o + fuel) (hpos : 0 < fuel) :
    ∃ r' taken rest, readdirLoop fs env d s r fuel o resid out touched = some r' ∧
      Place fs d blocks r'.offset rest ∧
      Delivered env r es out resid r'.err r'.out r'.resid taken rest (d.size ≤ r'.offset) := by
  induction fuel generalizing o es resid out touched with
  | zero => omega
  | succ fuel ih =>
    by_cases hgo : 0 < resid ∧ o < d.size
    · cases hp with
      | stop => exact absurd hgo.2 (lt_irrefl _)
      | @record k o pre post hc hlt =>
        have hle := hc.before.le
        have hk : s = o ∨ s ≤ o ∧ o = k * fs.bsize :=
          hstart.imp_right (And.imp_right (mod_eq_zero_iff hle hlt).1)
        obtain ⟨w', e, taken, rest, hwalk, hplace, hdel⟩ :=
          @walk_place fs env d blocks resid r k o s pre post out touched hfrag hwf hworks hgo.1 hc hlt hk
        unfold readdirLoop
        rw [if_pos hgo, hworks.read]
        simp only [skipcnt_eq_zero]
        rw [hwalk]
        -- where the walk over the block ends the call
        have hends : ∀ {e}, Blocked env w'.resid rest → e = fullEnd r w'.resid →
            Delivered env r (post ++ (blocks.drop (k + 1)).flatten) out resid e w'.out w'.resid taken
              (rest ++ (blocks.drop (k + 1)).flatten) (d.size ≤ (dirBlock fs d s r o).boff + w'.dp) :=
          fun hb he => ⟨by rw [hdel.split, List.append_assoc], hdel.out, hdel.resid, .inr ⟨hb.append, he⟩⟩
        have hfull : ∀ {e}, Blocked env w'.resid rest ∧ e = fullEnd r w'.resid → e ≠ .ok := by
          rintro e ⟨-, rfl⟩
          unfold fullEnd
          split <;> decide
        cases e with
        | ok =>
          have hend := hdel.ends.resolve_right fun h => hfull h rfl
          by_cases hresid : 0 < w'.resid
          · obtain ⟨hnext, hblk⟩ := hend.2.resolve_left (not_le.2 hresid)
            have hoff : fs.blkoff ((dirBlock fs d s r o).boff + w'.dp) = 0 := by
              rw [hblk]
              exact Nat.mul_mod_left _ _
            have hso : s ≤ (dirBlock fs d s r o).boff + w'.dp := by omega
            obtain ⟨r', taken', rest', hloop, hplace', hdel'⟩ :=
              @ih _ w'.resid _ w'.out w'.touched hplace (.inr ⟨hso, hoff⟩) (by omega) (by omega)
            refine ⟨r', taken ++ taken', rest', hloop, hplace', ?_, ?_, ?_, hdel'.ends⟩
            · rw [hdel.split, List.append_assoc, hdel'.split, List.append_assoc]
            · rw [hdel'.out, hdel.out, List.map_append, List.append_assoc]
            · rw [hdel'.resid, hdel.resid, direntSpace_append]
              push_cast
              ring
          · obtain ⟨n, rfl⟩ : ∃ n, fuel = n + 1 := ⟨fuel - 1, by omega⟩
            refine ⟨_, taken, _, readdirLoop_full (not_lt.1 hresid) _ _, hplace, ?_, hdel.out, hdel.resid,
              .inl ⟨rfl, .inl (not_lt.1 hresid)⟩⟩
            rw [hdel.split, List.append_assoc]
        | justReturn =>
          have hb := hdel.ends.resolve_left fun h => by cases h.1
          exact ⟨_, taken, _, rfl, hplace, hends hb.1 hb.2⟩
        | failed e =>
          have hb := hdel.ends.resolve_left fun h => by cases h.1
          exact ⟨_, taken, _, rfl, hplace, hends hb.1 hb.2⟩
    · have hdone : readdirLoop fs env d s r (fuel + 1) o resid out touched =
          some ⟨.ok, o, resid, out, touched⟩ := by
        unfold readdirLoop
        rw [if_neg hgo]
      refine ⟨_, [], es, hdone, hp, rfl, by simp, by simp [direntSpace], .inl ⟨rfl, ?_⟩⟩
      show resid ≤ 0 ∨ d.size ≤ o
      omega

/-- **A call** from a place: it copies out the entries that fit, leaves the place of those that remain,
and flags the end at the end of the directory. -/
theorem readdir_delivers (resid : ℤ) (hfrag : fs.fsize = fs.bsize) (hwf : d.Wf fs blocks)
    (hworks : env.Works)
    (hp : Place fs d blocks o es) :
    ∃ r' taken rest, ext2Readdir fs env d o resid = some r' ∧ Place fs d blocks r'.offset rest ∧
      Delivered env resid es [] resid r'.err r'.out r'.resid taken rest (d.size ≤ r'.offset) :=
  readdirLoop_delivers hfrag hwf hworks hp (.inl rfl) (by omega) (by omega)

/-- At the end of the directory no entry remains. -/
theorem Place.none_left (hwf : d.Wf fs blocks) (hp : Place fs d blocks o es)
    (hend : d.size ≤ o) : es = [] := by
  cases hp with
  | stop => rfl
  | record hc hlt =>
    have hsize := hc.lt_size hlt
    rw [← hwf.size] at hsize
    omega

/-- The directory starts with all of its entries. -/
theorem Place.start (hwf : d.Wf fs blocks) : Place fs d blocks 0 blocks.flatten := by
  rcases Nat.eq_zero_or_pos blocks.length with hlen | hlen
  · obtain rfl := List.length_eq_zero_iff.1 hlen
    have hsize : d.size = 0 := by
      rw [hwf.size]
      exact Nat.zero_mul _
    rw [← hsize]
    exact .stop
  · have hc := Cursor.start hwf hlen
    rw [Nat.zero_mul] at hc
    have hplace := Place.record hc (by rw [Nat.succ_mul]; have := fs.bsize_pos; omega)
    rwa [← List.flatten_cons, ← List.drop_eq_getElem_cons hlen] at hplace

/-! ### The calls -/

/-- How far the entries `live` are delivered by the last of some calls: `n` of them are, at least one by
every call unless all are; and the end is flagged if and only if all are, but for a buffer that the last
entry has filled up. -/
structure Progress (d : Directory) (live : List Dirent) (before : List ReaddirRes) (r : ReaddirRes) (n : ℕ) :
    Prop where
  error : r.error = none
  le : n ≤ live.length
  entries : before.flatMap ReaddirRes.out ++ r.out = (live.take n).map userDirent
  advances : before.length < n ∨ n = live.length
  sound : r.eof d = some true → n = live.length
  complete : n = live.length → 0 < r.resid → r.eof d = some true

/-- **A call that can hold the next entry** returns 0 with at least one entry, if one remains. -/
theorem readdir_progress (hfrag : fs.fsize = fs.bsize) (hwf : d.Wf fs blocks) (hworks : env.Works)
    (hp : Place fs d blocks o es)
    (hholds : ∀ e es, Place fs d blocks o (e :: es) → direntReclen env e.name.length ≤ resid) {r : ReaddirRes}
    (hr : ext2Readdir fs env d o resid = some r) : ∃ taken rest, es = taken ++ rest ∧
      r.out = taken.map userDirent ∧ Place fs d blocks r.offset rest ∧ r.error = none ∧
      (0 < taken.length ∨ rest = []) ∧ (r.eof d = some true → rest = []) ∧
      (rest = [] → 0 < r.resid → r.eof d = some true) := by
  obtain ⟨r', taken, rest, hr', hplace, hdel⟩ := readdir_delivers resid hfrag hwf hworks hp
  obtain rfl : r' = r := Option.some.inj (hr'.symm.trans hr)
  have hsplit := hdel.split
  have hmoved : 0 < taken.length ∨ rest = [] := by
    by_contra hnone
    obtain ⟨hzero, hne⟩ := not_or.1 hnone
    obtain rfl := List.length_eq_zero_iff.1 (Nat.eq_zero_of_not_pos hzero)
    obtain rfl : es = rest := hsplit
    obtain ⟨e, es', rfl⟩ := List.exists_cons_of_ne_nil hne
    have hfits := hholds e es' hp
    have hpos := direntReclen_pos env e.name.length
    have hresid : r'.resid = resid := by
      rw [hdel.resid]
      exact sub_zero resid
    rcases hdel.ends with ⟨-, hfull | hthrough⟩ | ⟨⟨x, hx, hlt⟩, -⟩
    · omega
    · exact hne (hplace.none_left hwf hthrough)
    · cases hx
      omega
  have herr : r'.error = none := by
    unfold ReaddirRes.error
    rcases hdel.ends with ⟨hok, -⟩ | ⟨⟨x, hx, hlt⟩, hfull⟩
    · rw [hok]
    · have hne : r'.resid ≠ resid := by
        obtain hpos | rfl := hmoved
        · obtain ⟨e, taken', rfl⟩ := List.exists_cons_of_length_pos hpos
          have hreclen := direntReclen_pos env e.name.length
          rw [hdel.resid]
          simp only [direntSpace, List.map_cons, List.sum_cons]
          omega
        · cases hx
      rw [hfull]
      unfold fullEnd
      rw [if_neg hne]
  have heof : r'.eof d = some (decide (d.size ≤ r'.offset)) := by
    unfold ReaddirRes.eof
    rw [if_pos herr]
  refine ⟨taken, rest, hsplit, by rw [hdel.out, List.nil_append], hplace, herr, hmoved, fun h => ?_, fun h hroom => ?_⟩
  · rw [heof] at h
    exact hplace.none_left hwf (of_decide_eq_true (Option.some.inj h))
  · subst h
    rw [heof]
    rcases hdel.ends with ⟨-, hfull | hthrough⟩ | ⟨⟨x, hx, -⟩, -⟩
    · omega
    · rw [decide_eq_true hthrough]
    · cases hx

/-- **A directory of a volume without fragments is read by calls that each start where the one before has
stopped**, every entry once and in order. -/
theorem readdirs_deliver (hfrag : fs.fsize = fs.bsize) (hwf : d.Wf fs blocks)
    {before after : List ReaddirRes} {r : ReaddirRes}
    (h : Reads fs d blocks 0 (before ++ r :: after)) : ∃ n, Progress d blocks.flatten before r n := by
  have hrun : ∀ (before : List ReaddirRes) (o : ℕ) (es : List Dirent), Place fs d blocks o es →
      Reads fs d blocks o (before ++ r :: after) → ∃ n, Progress d es before r n := by
    intro before
    induction before with
    | nil =>
      intro o es hp h
      obtain _ | ⟨hworks, hholds, hr, -⟩ := h
      obtain ⟨taken, rest, rfl, hout, -, herr, hmoved, hsound, hcomplete⟩ :=
        readdir_progress hfrag hwf hworks hp hholds hr
      have hall : taken.length = (taken ++ rest).length ↔ rest = [] := by
        rw [List.length_append, ← List.length_eq_zero_iff]
        omega
      refine ⟨taken.length, herr, by simp, ?_, hmoved.imp_right hall.2, fun he => hall.2 (hsound he),
        fun hn => hcomplete (hall.1 hn)⟩
      rw [List.take_left, ← hout]
      rfl
    | cons r₁ before ih =>
      intro o es hp h
      obtain _ | ⟨hworks, hholds, hr, hrs⟩ := h
      obtain ⟨taken, rest, rfl, hout, hplace, -, hmoved, -, -⟩ :=
        readdir_progress hfrag hwf hworks hp hholds hr
      obtain ⟨n, hn⟩ := ih _ rest hplace hrs
      have hlen : (taken ++ rest).length = taken.length + rest.length := List.length_append
      have hle := hn.le
      refine ⟨taken.length + n, hn.error, by omega, ?_, ?_, fun he => ?_, fun hall => hn.complete (by omega)⟩
      · rw [List.flatMap_cons, List.append_assoc, hn.entries, hout, List.take_length_add_append,
          List.map_append]
      · have hadv := hn.advances
        rw [List.length_cons]
        rcases hmoved with hpos | rfl
        · omega
        · rw [List.length_nil] at hle hlen
          right
          omega
      · have := hn.sound he
        omega
  exact hrun before 0 _ (.start hwf) h

theorem Place.mem {e : Dirent} (hp : Place fs d blocks o es) (he : e ∈ es) : e ∈ blocks.flatten := by
  cases hp with
  | stop => cases he
  | @record k o pre post hc hlt =>
    rcases List.mem_append.1 he with hpost | hrest
    · exact List.mem_flatten.2 ⟨_, List.mem_of_getElem? hc.block, List.mem_append_right pre hpost⟩
    · obtain ⟨b, hb, hin⟩ := List.mem_flatten.1 hrest
      exact List.mem_flatten.2 ⟨b, List.mem_of_mem_drop hb, hin⟩

end

/-! ### An unused record at the end -/

/-- A directory with the two names that each has, and an unused record behind them. -/
def spareDir : Directory where
  data i :=
    [2, 0, 0, 0, 12, 0, 1, 2, 46, 0, 0, 0, 2, 0, 0, 0, 12, 0, 2, 2, 46, 46, 0, 0, 0, 0, 0, 0, 0xe8, 0x0f].getD i 0
  size := 4096
  nlink := 2
  number := 2
  count := 0
  offset := 0
  endoff := 0
  diroff := 0

theorem spareDir_wf : spareDir.Wf volume4k [[⟨2, 2, [46]⟩, ⟨2, 2, [46, 46]⟩]] where
  size := rfl
  chain k hk := by
    obtain rfl : k = 0 := by
      rw [List.length_singleton] at hk
      omega
    have hr₀ : Record spareDir.data 0 := ⟨by decide, by decide⟩
    have hr₁ : Record spareDir.data 12 := ⟨by decide, by decide⟩
    have hr₂ : Record spareDir.data 24 := ⟨by decide, by decide⟩
    exact .cons hr₀ (.cons hr₁ (.cons hr₂ (.nil 4096)))
  names := by decide

/-- Names start at 8, and all goes well. -/
def goodReaddir : ReaddirEnv := ⟨8, by decide, fun _ => none, fun _ => none⟩

theorem goodReaddir_works : goodReaddir.Works := ⟨fun _ => rfl, fun _ => rfl⟩

/-- One call reads it. -/
theorem spareDir_delivered : ∃ r n, Progress spareDir [⟨2, 2, [46]⟩, ⟨2, 2, [46, 46]⟩] [] r n := by
  obtain ⟨r, hr⟩ := readdir_ends volume4k rfl goodReaddir spareDir 0 24
  refine ⟨r, @readdirs_deliver _ _ _ rfl spareDir_wf [] [] r (.call goodReaddir_works ?_ hr (.nil _))⟩
  intro e es hp
  have he : e ∈ [⟨2, 2, [46]⟩, ⟨2, 2, [46, 46]⟩] := hp.mem List.mem_cons_self
  rcases List.mem_pair.1 he with rfl | rfl <;> decide

/-- A buffer that the last entry fills up: all entries are delivered, and the end is not flagged. -/
theorem spareDir_no_eof : spareDir.Wf volume4k [[⟨2, 2, [46]⟩, ⟨2, 2, [46, 46]⟩]] ∧ goodReaddir.Works ∧
    (ext2Readdir volume4k goodReaddir spareDir 0 24).map (fun r => (r.out, r.eof spareDir)) =
      some ([⟨2, 4, [46]⟩, ⟨2, 4, [46, 46]⟩], some false) :=
  ⟨spareDir_wf, goodReaddir_works, by decide +kernel⟩

end Ext2fs
