import Ext2fs.Newfs.Groups

/-!
# The first inodes and directories

`fsinit` takes blocks of the first group one after the other and puts three inodes into its table.  What
is on the volume then depends on four things only, which are kept here apart from it.

* `Made` — the blocks taken, the directories, and the inodes put so far;
* `Shows` — the volume and the memory show it;
* `alloc_meets`, `iput_meets` — one block and one inode;
* `fsinit_meets` — all of it.
-/

namespace Ext2fs.Newfs

open Tracked Fsck Stopping

/-! ### The search for a clear bit -/

section

variable {map : Bitmap} {len i : ℕ}

theorem isclr_of_byte (loc : ℕ) {k : ℕ} (hk : k < NBBY) :
    map.isclr (loc * NBBY + k) = (map loc &&& (1#8 <<< k) == 0#8) := by
  unfold Bitmap.isclr NBBY at *
  rw [show (loc * 8 + k) / 8 = loc by omega, show (loc * 8 + k) % 8 = k by omega]

/-- **The first clear bit** is found, if there is one. -/
theorem firstClear_spec (map : Bitmap) (len : ℕ) :
    (∃ i, firstClear map len = some i ∧ i < NBBY * len ∧ map.isclr i = true ∧
      ∀ j < i, map.isclr j = false) ∨
    firstClear map len = none ∧ ∀ j < NBBY * len, map.isclr j = false := by
  have hbyte : ∀ j b : ℕ, j < NBBY * b → j / NBBY < b := fun j b h => by
    unfold NBBY at *
    omega
  unfold firstClear
  cases hfirst : memcchr map 0xff 0 len with
  | none =>
    have hfull := memcchr_eq_none hfirst
    refine .inr ⟨rfl, fun j hj => isclr_full (hfull _ (Nat.zero_le _) ?_)⟩
    exact (hbyte j len hj).trans_eq (Nat.zero_add len).symm
  | some loc =>
    obtain ⟨-, hloc, hne, hall⟩ := memcchr_eq_some hfirst
    have hbelow : ∀ j, j < NBBY * loc → map.isclr j = false := fun j hj =>
      isclr_full (hall _ (Nat.zero_le _) (hbyte j loc hj))
    obtain ⟨hclear, hlt, -⟩ := lowest_clear hne
    cases hbit : (List.range NBBY).find? fun i => map loc &&& (1#8 <<< i) == 0#8 with
    | none =>
      have hset := List.find?_eq_none.1 hbit _ (List.mem_range.2 hlt)
      rw [isclr_of_byte loc hlt] at hclear
      exact absurd hclear hset
    | some k =>
      obtain ⟨hk, hmem, hbefore⟩ := List.find?_range_eq_some.1 hbit
      have hk8 : k < NBBY := List.mem_range.1 hmem
      have hgot : (do
          let loc ← some loc
          let i ← (List.range NBBY).find? fun i => map loc &&& (1#8 <<< i) == 0#8
          return loc * NBBY + i) = some (loc * NBBY + k) := by
        rw [Option.bind_eq_bind, Option.bind_some, hbit]
        rfl
      refine .inl ⟨loc * NBBY + k, hgot, ?_, ?_, fun j hj => ?_⟩
      · unfold NBBY at *
        omega
      · rw [isclr_of_byte loc hk8]
        exact hk
      · by_cases hin : j < NBBY * loc
        · exact hbelow j hin
        · obtain ⟨m, rfl⟩ : ∃ m, j = loc * NBBY + m :=
            ⟨j - loc * NBBY, by rw [Nat.mul_comm] at hin; omega⟩
          have hm := hbefore m (by omega)
          rw [isclr_of_byte loc (by omega)]
          simpa using hm

/-- It is the first bit of the only run of clear bits. -/
theorem firstClear_run {a e : ℕ} (he : e ≤ NBBY * len)
    (h : ∀ j < NBBY * len, map.isclr j = decide (a ≤ j ∧ j < e)) :
    firstClear map len = if a < e then some a else none := by
  rcases firstClear_spec map len with ⟨i, hi, hlt, hclear, hbelow⟩ | ⟨hnone, hall⟩
  · rw [h i hlt, decide_eq_true_iff] at hclear
    rw [hi, if_pos (by omega)]
    by_contra hne
    have hai : a < i := by
      rcases Nat.lt_or_eq_of_le hclear.1 with hlt' | heq
      · exact hlt'
      · exact absurd (congrArg some heq.symm) hne
    have := hbelow a hai
    rw [h a (by omega), decide_eq_false_iff_not] at this
    omega
  · rw [hnone]
    split
    · next hlt =>
      have := hall a (by omega)
      rw [h a (by omega), decide_eq_false_iff_not] at this
      omega
    · rfl

end

/-! ### What is made so far -/

/-- The blocks of the first group that are taken, the directories, whether `lost+found` is marked, and
the inodes in the slots of the first table. -/
structure Made where
  given : ℕ
  dirs : ℕ
  lost : Bool
  node : ℕ → Option Node

namespace Made

/-- Nothing. -/
def nothing : Made := ⟨0, 0, false, fun _ => none⟩

/-- One more block. -/
def take (m : Made) (mode : ℕ) : Made :=
  { m with given := m.given + 1, dirs := if mode &&& IFDIR ≠ 0 then m.dirs + 1 else m.dirs }

/-- `lost+found` is marked. -/
def mark (m : Made) : Made := { m with lost := true }

/-- One more inode. -/
def put (m : Made) (ino : ℕ) (ip : Node) : Made :=
  { m with node := Function.update m.node (ino - 1) (some ip) }

theorem put_self (m : Made) (ino : ℕ) (ip : Node) : (m.put ino ip).node (ino - 1) = some ip :=
  Function.update_self ..

/-- The descriptor of the first group. -/
def desc (m : Made) (p : Params) (sb : Sb) : Desc where
  b_bitmap := bitmapAt p sb 0
  i_bitmap := bitmapAt p sb 0 + 1
  i_tables := bitmapAt p sb 0 + 1 + 1
  nbfree := sb.size 0 - overhead p sb 0 - m.given
  nifree := sb.ipg - (FIRSTINO - 1) - m.lost.toNat
  ndirs := m.dirs

end Made

/-- The sum of the free blocks at first. -/
def Sb.allFree (sb : Sb) (p : Params) : ℕ := ((List.range sb.gcount).map fun c => (gdOf p sb c).nbfree).sum

/-- The sum of the free inodes at first. -/
def Sb.allInodes (sb : Sb) (p : Params) : ℕ :=
  ((List.range sb.gcount).map fun c => (gdOf p sb c).nifree).sum

/-- **The volume and the memory show** what is made. -/
structure Shows (p : Params) (sb : Sb) (m : Made) (vol : Volume) : Prop where
  gd : vol.gd = ((List.range sb.gcount).map (descOf p sb)).set 0 (m.desc p sb)
  fbcount : vol.fbcount + m.given = sb.allFree p
  ficount : vol.ficount + m.lost.toNat = sb.allInodes p
  b_bitmap : ∃ map, vol.disk (bitmapAt p sb 0) = .bitmap map ∧ ∀ i < 8 * p.bsize,
    map.isclr i = decide (overhead p sb 0 + m.given ≤ i ∧ i < sb.size 0)
  i_bitmap : ∃ map, vol.disk (bitmapAt p sb 0 + 1) = .bitmap map ∧ ∀ i < 8 * p.bsize,
    map.isclr i = decide (FIRSTINO - 1 + m.lost.toNat ≤ i ∧ i < NBBY * (sb.ipg / NBBY))
  table : ∀ j < sb.itpg, ∃ slots, vol.disk (bitmapAt p sb 0 + 1 + 1 + j) = .inodes slots ∧
    ∀ k < p.ipb, slots k = m.node (j * p.ipb + k)
  others : ∀ c, 0 < c → c < sb.gcount → GroupOn p sb vol.disk c

/-- **What `fsinit` relies on**: the tables hold the inodes, the first of them the reserved ones, and no
count overflows. -/
structure Ready (p : Params) (sb : Sb) : Prop extends Apart p sb where
  ipg : sb.ipg = sb.itpg * p.ipb
  firstino : FIRSTINO ≤ sb.ipg
  ipg_lt : sb.ipg < 2 ^ 16
  nbfree : sb.size 0 - overhead p sb 0 < 2 ^ 16
  allFree : sb.allFree p < 2 ^ 32
  allInodes : sb.allInodes p < 2 ^ 32
  icount : sb.ipg * sb.gcount < 2 ^ 32
  inodes : sb.ipg / NBBY ≤ p.bsize

section

variable {raw : Data → Bitmap} {p : Params} {sb : Sb} {m : Made}

theorem Made.desc_nothing (h : 0 < sb.gcount) : (List.range sb.gcount).map (descOf p sb) =
    ((List.range sb.gcount).map (descOf p sb)).set 0 (Made.nothing.desc p sb) := by
  obtain ⟨n, hn⟩ : ∃ n, sb.gcount = n + 1 := ⟨sb.gcount - 1, by omega⟩
  rw [hn, List.range_succ_eq_map, List.map_cons, List.set_cons_zero]
  rfl

/-- The groups as `initcg` leaves them. -/
theorem Upto.shows {vol : Volume} (h : Ready p sb) (hu : Upto p sb sb.gcount vol) :
    Shows p sb .nothing vol := by
  have hfirst := hu.groups 0 h.gcount
  refine ⟨?_, hu.fbcount, hu.ficount, ?_, ?_, fun j hj => ?_, fun c _ hc => hu.groups c hc⟩
  · rw [hu.gd]
    exact Made.desc_nothing h.gcount
  · exact ⟨_, hfirst.b_bitmap, fun i hi => isclr_blockMap h.toApart h.gcount hi⟩
  · refine ⟨_, hfirst.i_bitmap, fun i hi => ?_⟩
    rw [isclr_inodeMap h.inodes hi]
    exact decide_eq_decide.2 ⟨fun hc => ⟨hc.1 rfl, hc.2⟩, fun hc => ⟨fun _ => hc.1, hc.2⟩⟩
  · exact ⟨_, hfirst.tables j hj, fun k _ => rfl⟩

theorem Shows.first {vol : Volume} (h : 0 < sb.gcount) (hs : Shows p sb m vol) :
    vol.gd[0]? = some (m.desc p sb) := by
  rw [hs.gd, List.getElem?_set_self]
  rw [List.length_map, List.length_range]
  exact h

/-- What is shown is in the metadata of the groups and in memory. -/
theorem Shows.congr {vol vol' : Volume} (h : Ready p sb) (hs : Shows p sb m vol)
    (hgd : vol'.gd = vol.gd) (hfb : vol'.fbcount = vol.fbcount) (hfi : vol'.ficount = vol.ficount)
    (hsame : ∀ b, bitmapAt p sb 0 ≤ b →
      b < sb.base 0 + overhead p sb 0 ∨ sb.base 0 + sb.bpg ≤ b → vol'.disk b = vol.disk b) :
    Shows p sb m vol' := by
  have hat := h.toFits.bitmapAt_le 0
  have hend := h.end_le h.gcount
  obtain ⟨map, hmap, hclr⟩ := hs.b_bitmap
  obtain ⟨imap, himap, hiclr⟩ := hs.i_bitmap
  refine ⟨hgd.trans hs.gd, hfb ▸ hs.fbcount, hfi ▸ hs.ficount, ⟨map, ?_, hclr⟩, ⟨imap, ?_, hiclr⟩,
    fun j hj => ?_, fun c h0 hc => ?_⟩
  · exact (hsame _ le_rfl (.inl (by omega))).trans hmap
  · exact (hsame _ (by omega) (.inl (by omega))).trans himap
  · obtain ⟨slots, hslots, hnode⟩ := hs.table j hj
    exact ⟨slots, (hsame _ (by omega) (.inl (by omega))).trans hslots, hnode⟩
  · refine (hs.others c h0 hc).congr fun k hk _ => hsame k ?_ (.inr ?_)
    all_goals
      have hmono := sb.base_mono (c := 0 + 1) (d := c) (by omega)
      rw [sb.base_succ] at hmono hend
      omega

/-- **A write elsewhere in the first group** changes nothing of it. -/
theorem Shows.put_other {vol : Volume} {b : ℕ} {data : Data} (h : Ready p sb) (hs : Shows p sb m vol)
    (hb : b < sb.base 0 + sb.bpg)
    (hout : b < bitmapAt p sb 0 ∨ sb.base 0 + overhead p sb 0 ≤ b) :
    Shows p sb m (vol.put p b data) :=
  hs.congr h rfl rfl rfl fun k hk hk' => Function.update_of_ne (by omega) ..

/-- Every block of the first group is near. -/
theorem Ready.near (h : Ready p sb) {b : ℕ} (hb : b ≤ sb.base 0 + sb.bpg) :
    b * 2 ^ p.fsbtodb < 2 ^ 32 :=
  h.toFits.near (fun _ hd => absurd hd (Nat.not_lt_zero _)) hb

theorem Ready.first_end (h : Ready p sb) : sb.base 0 + overhead p sb 0 ≤ sb.base 0 + sb.bpg := by
  have := h.end_le h.gcount
  rwa [sb.base_succ] at this

/-! ### A block -/

/-- The counts of the first group are a part of the totals. -/
theorem Ready.first_le_all (h : Ready p sb) : sb.size 0 - overhead p sb 0 ≤ sb.allFree p ∧
    sb.ipg - (FIRSTINO - 1) ≤ sb.allInodes p := by
  have hmem : 0 ∈ List.range sb.gcount := List.mem_range.2 h.gcount
  constructor
  · exact List.single_le_sum (fun _ _ => Nat.zero_le _) _ (List.mem_map_of_mem hmem)
  · exact List.single_le_sum (fun _ _ => Nat.zero_le _) _ (List.mem_map_of_mem hmem)

/-- **A block is taken**: its bit is set, and the counts go down. -/
theorem Shows.take {vol : Volume} {mode bno : ℕ} {map : Bitmap} (h : Ready p sb)
    (hs : Shows p sb m vol)
    (hclr : ∀ i < 8 * p.bsize,
      map.isclr i = decide (overhead p sb 0 + m.given ≤ i ∧ i < sb.size 0))
    (hbno : bno = overhead p sb 0 + m.given) (hroom : bno < sb.size 0) (hdirs : m.dirs < 2 ^ 15) :
    Shows p sb (m.take mode) { vol.put p (bitmapAt p sb 0) (.bitmap (map.setbit bno)) with
      gd := vol.gd.set 0 { m.desc p sb with
        nbfree := ((m.desc p sb).nbfree - 1) % 2 ^ 16
        ndirs := if mode &&& IFDIR ≠ 0 then ((m.desc p sb).ndirs + 1) % 2 ^ 16
          else (m.desc p sb).ndirs }
      fbcount := u32 (vol.fbcount - 1) } := by
  have hat := h.toFits.bitmapAt_le 0
  have hend := h.first_end
  obtain ⟨imap, himap, hiclr⟩ := hs.i_bitmap
  have hfb := hs.fbcount
  have hall := h.first_le_all.1
  have hword := h.allFree
  refine ⟨?_, ?_, hs.ficount, ⟨_, Function.update_self .., fun i hi => ?_⟩, ⟨imap, ?_, hiclr⟩,
    fun j hj => ?_, fun c h0 hc => ?_⟩
  · have hdesc : ({ m.desc p sb with
        nbfree := ((m.desc p sb).nbfree - 1) % 2 ^ 16
        ndirs := if mode &&& IFDIR ≠ 0 then ((m.desc p sb).ndirs + 1) % 2 ^ 16
          else (m.desc p sb).ndirs } : Desc) = (m.take mode).desc p sb := by
      have hfree : (sb.size 0 - overhead p sb 0 - m.given - 1) % 2 ^ 16 =
          sb.size 0 - overhead p sb 0 - (m.given + 1) := by
        have := h.nbfree
        rw [Nat.mod_eq_of_lt (by omega)]
        omega
      have hdir : (m.dirs + 1) % 2 ^ 16 = m.dirs + 1 := Nat.mod_eq_of_lt (by omega)
      unfold Made.desc Made.take
      simp only [hfree, hdir]
    show vol.gd.set 0 _ = _
    rw [hs.gd, List.set_set, hdesc]
  · show u32 ((vol.fbcount : ℤ) - 1) + (m.given + 1) = _
    have hval : u32 ((vol.fbcount : ℤ) - 1) = vol.fbcount - 1 := by
      unfold u32
      omega
    omega
  · rw [Bitmap.isclr_setbit]
    show _ = decide (overhead p sb 0 + (m.given + 1) ≤ i ∧ i < sb.size 0)
    by_cases hi' : i = bno
    · rw [hi', Function.update_self, decide_eq_false (by omega)]
    · rw [Function.update_of_ne hi', hclr i hi]
      exact decide_eq_decide.2 ⟨fun hc => by omega, fun hc => by omega⟩
  · exact (Function.update_of_ne (by omega) ..).trans himap
  · obtain ⟨slots, hslots, hnode⟩ := hs.table j hj
    exact ⟨slots, (Function.update_of_ne (by omega) ..).trans hslots, hnode⟩
  · refine (hs.others c h0 hc).congr fun k hk _ => Function.update_of_ne ?_ ..
    have hmono := sb.base_mono (c := 0 + 1) (d := c) (by omega)
    rw [sb.base_succ] at hmono
    omega

/-- **`alloc`** gives the next block of the first group, or none. -/
theorem alloc_meets {size mode : ℕ} (h : Ready p sb) (hdirs : m.dirs < 2 ^ 15) :
    Meets (Shows p sb m) (alloc raw p sb size mode) (fun b vol => b ≠ 0 →
      overhead p sb 0 + m.given < sb.size 0 ∧ b = sb.base 0 + (overhead p sb 0 + m.given) ∧
        Shows p sb (m.take mode) vol) fun _ => True := by
  have hat := h.toFits.bitmapAt_le 0
  have hsize := h.size_le 0
  have hbpg : sb.bpg = NBBY * p.bsize := h.bpg.trans (Nat.mul_comm ..)
  have hB : sb.bpg ≤ 32768 := h.bpg ▸ h.sizes.bpg_le
  have hend := h.first_end
  have hbase : sb.base 0 = sb.first_dblock := Nat.add_zero _
  have hone := first_le (p := p)
  unfold alloc
  refine Meets.bind (Q := fun v vol => v = vol ∧ Shows p sb m vol)
    (Meets.get fun vol hs => ⟨rfl, hs⟩) fun v => ?_
  refine Meets.bind (Q := fun d vol => d = m.desc p sb ∧ Shows p sb m vol) ?_ fun d => ?_
  · refine Meets.ofOption (fun _ _ _ => trivial) fun d hd vol hvol => ?_
    obtain ⟨rfl, hs⟩ := hvol
    rw [hs.first h.gcount] at hd
    exact ⟨(Option.some.inj hd).symm, hs⟩
  refine Meets.fact fun hd => ?_
  subst hd
  refine Meets.ite (fun _ => Meets.pure fun _ _ hb => absurd rfl hb) fun _ => ?_
  refine Meets.ite (fun _ => Meets.pure fun _ _ hb => absurd rfl hb) fun _ => ?_
  unfold searchBlock
  refine Meets.bind (Q := fun data vol => (∃ map, data = .bitmap map ∧ ∀ i < 8 * p.bsize,
    map.isclr i = decide (overhead p sb 0 + m.given ≤ i ∧ i < sb.size 0)) ∧ Shows p sb m vol)
      (rdfsBlock_meets (h.near ?_) fun vol hs => ⟨hs.b_bitmap, hs⟩) fun data => ?_
  · show bitmapAt p sb 0 ≤ _
    omega
  refine Meets.fact fun hdata => ?_
  obtain ⟨map, rfl, hclr⟩ := hdata
  have hlen : sb.bpg / NBBY = p.bsize := by
    rw [hbpg]
    exact Nat.mul_div_cancel_left _ (by decide)
  have hfound : firstClear map (sb.bpg / NBBY) =
      if overhead p sb 0 + m.given < sb.size 0 then some (overhead p sb 0 + m.given) else none :=
    firstClear_run (by rw [hlen, ← hbpg]; exact hsize) (by rw [hlen]; exact hclr)
  have hmap : (Data.bitmap map).map raw = map := rfl
  rw [hmap, hfound]
  by_cases hroom : overhead p sb 0 + m.given < sb.size 0
  swap
  · rw [if_neg hroom]
    exact Meets.pure fun _ _ hb => absurd rfl hb
  rw [if_pos hroom]
  unfold takeBlock
  refine Meets.bind (Q := fun _ vol => ∃ vol₀, Shows p sb m vol₀ ∧ vol = vol₀.put p (bitmapAt p sb 0)
    (.bitmap (map.setbit (overhead p sb 0 + m.given)))) ?_ fun _ => ?_
  · have hb : (m.desc p sb).b_bitmap = bitmapAt p sb 0 := rfl
    rw [hb]
    exact wtfsBlock_meets (h.near (by omega)) fun vol hs _ => ⟨vol, hs, rfl⟩
  refine Meets.bind (Q := fun _ => Shows p sb (m.take mode)) ?_ fun _ => ?_
  · refine Meets.modify fun vol hvol => ?_
    obtain ⟨vol₀, hs, rfl⟩ := hvol
    exact hs.take h hclr rfl hroom hdirs
  · refine Meets.pure fun vol hs _ => ⟨hroom, ?_, hs⟩
    rw [hbase]
    exact u32_of_lt (by rw [h.first_dblock]; omega)

theorem allocOrStop_meets {size mode : ℕ} (h : Ready p sb) (hdirs : m.dirs < 2 ^ 15) :
    Meets (Shows p sb m) (allocOrStop raw p sb size mode) (fun b vol =>
      overhead p sb 0 + m.given < sb.size 0 ∧ b = sb.base 0 + (overhead p sb 0 + m.given) ∧
        Shows p sb (m.take mode) vol) fun _ => True := by
  unfold allocOrStop
  refine Meets.bind (alloc_meets h hdirs) fun b => ?_
  refine Meets.bind (Q := fun _ vol => overhead p sb 0 + m.given < sb.size 0 ∧
    b = sb.base 0 + (overhead p sb 0 + m.given) ∧ Shows p sb (m.take mode) vol)
      (Meets.assert (fun hb vol hvol => hvol hb) fun _ _ _ => trivial) fun _ => ?_
  exact Meets.pure fun _ hvol => hvol

/-! ### An inode -/

/-- Blocks and slots of a table. -/
theorem slot_lt {i n k : ℕ} (hi : i < n * k) : i / k < n ∧ i % k < k ∧ i / k * k + i % k = i := by
  have hk : 0 < k := Nat.pos_of_ne_zero fun h0 => by
    rw [h0, Nat.mul_zero] at hi
    omega
  exact ⟨Nat.div_lt_of_lt_mul (Nat.mul_comm n k ▸ hi), Nat.mod_lt _ hk, Nat.div_add_mod' ..⟩

/-- **An inode is marked.** -/
theorem Shows.mark {vol : Volume} {map : Bitmap} (h : Ready p sb) (hs : Shows p sb m vol)
    (hclr : ∀ i < 8 * p.bsize, map.isclr i =
      decide (FIRSTINO - 1 + m.lost.toNat ≤ i ∧ i < NBBY * (sb.ipg / NBBY)))
    (hm : m.lost = false) :
    Shows p sb m.mark
      { vol.put p (bitmapAt p sb 0 + 1) (.bitmap (map.setbit (LOSTFOUNDINO - 1))) with
        gd := vol.gd.set 0 { m.desc p sb with nifree := ((m.desc p sb).nifree - 1) % 2 ^ 16 }
        ficount := u32 (vol.ficount - 1) } := by
  have hat := h.toFits.bitmapAt_le 0
  have hend := h.first_end
  have hfirst := h.firstino
  obtain ⟨bmap, hbmap, hbclr⟩ := hs.b_bitmap
  have hfi := hs.ficount
  have hall := h.first_le_all.2
  have hword := h.allInodes
  have hlost : m.lost.toNat = 0 := by rw [hm]; rfl
  refine ⟨?_, hs.fbcount, ?_, ⟨bmap, ?_, hbclr⟩, ⟨_, Function.update_self .., fun i hi => ?_⟩,
    fun j hj => ?_, fun c h0 hc => ?_⟩
  · have hfree : (sb.ipg - (FIRSTINO - 1) - m.lost.toNat - 1) % 2 ^ 16 =
        sb.ipg - (FIRSTINO - 1) - Bool.toNat true := by
      have := h.ipg_lt
      rw [Nat.mod_eq_of_lt (by omega), hlost]
      rfl
    have hdesc : ({ m.desc p sb with nifree := ((m.desc p sb).nifree - 1) % 2 ^ 16 } : Desc) =
        m.mark.desc p sb := by
      unfold Made.desc Made.mark
      simp only [hfree]
    show vol.gd.set 0 _ = _
    rw [hs.gd, List.set_set, hdesc]
  · show u32 ((vol.ficount : ℤ) - 1) + Bool.toNat true = _
    have hval : u32 ((vol.ficount : ℤ) - 1) = vol.ficount - 1 := by
      unfold u32 FIRSTINO at *
      omega
    rw [hval, Bool.toNat_true]
    unfold FIRSTINO at *
    omega
  · exact (Function.update_of_ne (by omega) ..).trans hbmap
  · rw [Bitmap.isclr_setbit]
    show _ = decide (FIRSTINO - 1 + Bool.toNat true ≤ i ∧ i < NBBY * (sb.ipg / NBBY))
    rw [Bool.toNat_true]
    by_cases hi' : i = LOSTFOUNDINO - 1
    · rw [hi', Function.update_self, decide_eq_false]
      unfold LOSTFOUNDINO FIRSTINO
      omega
    · rw [Function.update_of_ne hi', hclr i hi, hlost]
      refine decide_eq_decide.2 ?_
      unfold LOSTFOUNDINO at hi'
      omega
  · obtain ⟨slots, hslots, hnode⟩ := hs.table j hj
    exact ⟨slots, (Function.update_of_ne (by omega) ..).trans hslots, hnode⟩
  · refine (hs.others c h0 hc).congr fun k hk _ => Function.update_of_ne ?_ ..
    have hmono := sb.base_mono (c := 0 + 1) (d := c) (by omega)
    rw [sb.base_succ] at hmono
    omega

/-- `lost+found` is marked in the inode bitmap; the group of it is the first one, since the divisor of
`ino_to_cg` is 0. -/
theorem markInode_meets (h : Ready p sb) (hm : m.lost = false) :
    Meets (Shows p sb m) (markInode raw p sb LOSTFOUNDINO) (fun _ => Shows p sb m.mark)
      fun _ => True := by
  have hat := h.toFits.bitmapAt_le 0
  have hend := h.first_end
  have hcg : (sblock p sb).ino_to_cg LOSTFOUNDINO = 0 := Nat.div_zero _
  unfold markInode
  rw [hcg]
  refine Meets.bind (Q := fun v vol => v = vol ∧ Shows p sb m vol)
    (Meets.get fun vol hs => ⟨rfl, hs⟩) fun v => ?_
  have hread : Meets (fun vol => v = vol ∧ Shows p sb m vol) (Stopping.ofOption v.gd[0]?)
      (fun d vol => d = m.desc p sb ∧ v = vol ∧ Shows p sb m vol) fun _ => True := by
    refine Meets.ofOption (fun _ _ _ => trivial) fun d hd vol hvol => ?_
    obtain ⟨rfl, hs⟩ := hvol
    rw [hs.first h.gcount] at hd
    exact ⟨(Option.some.inj hd).symm, rfl, hs⟩
  refine Meets.bind hread fun d => Meets.fact fun hd => ?_
  refine Meets.bind hread fun first => Meets.fact fun hfirst => ?_
  subst hd hfirst
  refine Meets.bind (Q := fun _ => Shows p sb m)
    (Meets.assert (fun _ _ hvol => hvol.2) fun _ _ _ => trivial) fun _ => ?_
  refine Meets.bind (Q := fun data vol => (∃ map, data = .bitmap map ∧ ∀ i < 8 * p.bsize,
    map.isclr i = decide (FIRSTINO - 1 + m.lost.toNat ≤ i ∧ i < NBBY * (sb.ipg / NBBY))) ∧
      Shows p sb m vol) (rdfsBlock_meets (h.near ?_) fun vol hs => ⟨hs.i_bitmap, hs⟩) fun data => ?_
  · show bitmapAt p sb 0 + 1 ≤ _
    omega
  refine Meets.fact fun hdata => ?_
  obtain ⟨map, rfl, hclr⟩ := hdata
  have hmap : (Data.bitmap map).map raw = map := rfl
  rw [hmap]
  refine Meets.bind (Q := fun _ vol => ∃ vol₀, Shows p sb m vol₀ ∧ vol = vol₀.put p
    (bitmapAt p sb 0 + 1) (.bitmap (map.setbit (LOSTFOUNDINO - 1)))) ?_ fun _ => ?_
  · unfold setInodeBit
    refine Meets.bind (Q := fun _ => Shows p sb m)
      (Meets.assert (fun _ _ hs => hs) fun _ _ _ => trivial) fun _ => ?_
    have hi : (m.desc p sb).i_bitmap = bitmapAt p sb 0 + 1 := rfl
    rw [hi]
    exact wtfsBlock_meets (h.near (by omega)) fun vol hs _ => ⟨vol, hs, rfl⟩
  · refine Meets.modify fun vol hvol => ?_
    obtain ⟨vol₀, hs, rfl⟩ := hvol
    exact hs.mark h hclr hm

/-- **An inode of the first group** goes to its slot of the table. -/
theorem putInode_meets {ip : Node} {ino : ℕ} (h : Ready p sb) (h0 : 0 < ino) (hino : ino ≤ FIRSTINO) :
    Meets (Shows p sb m) (putInode p sb ip ino) (fun _ => Shows p sb (m.put ino ip))
      fun _ => True := by
  have hat := h.toFits.bitmapAt_le 0
  have hend := h.first_end
  have hipg := h.firstino
  obtain ⟨hblk, hslot, hsum⟩ := slot_lt (i := ino - 1) (n := sb.itpg) (k := p.ipb)
    (by rw [← h.ipg]; omega)
  obtain ⟨q, hq⟩ : ∃ q, (ino - 1) / p.ipb = q := ⟨_, rfl⟩
  rw [hq] at hblk hsum
  unfold putInode
  refine Meets.bind (Q := fun v vol => v = vol ∧ Shows p sb m vol)
    (Meets.get fun vol hs => ⟨rfl, hs⟩) fun v => ?_
  refine Meets.bind (Q := fun b vol => b = bitmapAt p sb 0 + 1 + 1 + q ∧
    Shows p sb m vol) ?_ fun b => Meets.fact fun hb => ?_
  · refine Meets.ofOption (fun _ _ _ => trivial) fun b hb vol hvol => ?_
    obtain ⟨rfl, hs⟩ := hvol
    -- the stride of `EXT2_GD` is 0
    have hdesc : descAt v.gd (sblock p sb).e2fs_gdsize ((sblock p sb).ino_to_cg ino) =
        some (m.desc p sb) := by
      have hindex : (sblock p sb).ino_to_cg ino * (sblock p sb).e2fs_gdsize / EXT2_MIN_GD_SIZE = 0 :=
        (congrArg (· / EXT2_MIN_GD_SIZE) (Nat.mul_zero _)).trans (Nat.zero_div _)
      unfold descAt
      rw [hindex]
      exact hs.first h.gcount
    have hmod : (ino - 1) % sb.ipg = ino - 1 := Nat.mod_eq_of_lt (by omega)
    unfold Sblock.ino_to_fsba at hb
    rw [hdesc] at hb
    refine ⟨?_, hs⟩
    rw [← Option.some.inj hb]
    show _ + (ino - 1) % sb.ipg / p.ipb = _
    rw [hmod]
    exact congrArg (bitmapAt p sb 0 + 1 + 1 + ·) hq
  rw [hb]
  refine Meets.bind (Q := fun data vol => (∃ slots, data = .inodes slots ∧ ∀ k < p.ipb,
    slots k = m.node (q * p.ipb + k)) ∧ Shows p sb m vol)
      (rdfsBlock_meets (h.near (by omega)) fun vol hs => ⟨hs.table _ hblk, hs⟩) fun data => ?_
  refine Meets.fact fun hdata => ?_
  obtain ⟨slots, rfl, hnode⟩ := hdata
  refine wtfsBlock_meets (h.near (by omega)) fun vol hs _ => ?_
  have hslots : Data.slots (.inodes slots) = slots := rfl
  have hfsbo : (sblock p sb).ino_to_fsbo ino = (ino - 1) % p.ipb := rfl
  rw [hslots, hfsbo]
  obtain ⟨map, hmap, hclr⟩ := hs.b_bitmap
  obtain ⟨imap, himap, hiclr⟩ := hs.i_bitmap
  refine ⟨hs.gd, hs.fbcount, hs.ficount, ⟨map, ?_, hclr⟩, ⟨imap, ?_, hiclr⟩, fun j hj => ?_,
    fun c h0 hc => ?_⟩
  · exact (Function.update_of_ne (by omega) ..).trans hmap
  · exact (Function.update_of_ne (by omega) ..).trans himap
  · by_cases hj' : j = q
    · subst hj'
      refine ⟨_, Function.update_self .., fun k hk => ?_⟩
      show _ = Function.update m.node (ino - 1) (some ip) _
      by_cases hk' : k = (ino - 1) % p.ipb
      · rw [hk', hsum, Function.update_self, Function.update_self]
      · rw [Function.update_of_ne hk', Function.update_of_ne (by omega)]
        exact hnode k hk
    · obtain ⟨slots', hslots', hnode'⟩ := hs.table j hj
      refine ⟨slots', (Function.update_of_ne (by omega) ..).trans hslots', fun k hk => ?_⟩
      rw [hnode' k hk]
      refine (Function.update_of_ne (fun heq => hj' ?_) ..).symm
      rw [← hq, ← heq, Nat.mul_comm, Nat.mul_add_div (by omega), Nat.div_eq_of_lt hk, Nat.add_zero]
  · refine (hs.others c h0 hc).congr fun k hk _ => Function.update_of_ne ?_ ..
    have hmono := sb.base_mono (c := 0 + 1) (d := c) (by omega)
    rw [sb.base_succ] at hmono
    omega

/-- **`iput` of a reserved inode.** -/
theorem iput_meets {ip : Node} {ino : ℕ} (h : Ready p sb) (h0 : 0 < ino) (hino : ino < FIRSTINO) :
    Meets (Shows p sb m) (iput raw p sb ip ino) (fun _ => Shows p sb (m.put ino ip))
      fun _ => True := by
  unfold iput
  refine Meets.bind (Q := fun _ => Shows p sb m) (Meets.when (fun hge => ?_) fun _ _ hs => hs)
    fun _ => ?_
  · omega
  refine Meets.bind (Q := fun _ => Shows p sb m)
    (Meets.assert (fun _ _ hs => hs) fun _ _ _ => trivial) fun _ => ?_
  exact putInode_meets h h0 (Nat.le_of_lt hino)

/-- **`iput` of `lost+found`.** -/
theorem iput_lost_meets {ip : Node} (h : Ready p sb) (hm : m.lost = false) :
    Meets (Shows p sb m) (iput raw p sb ip LOSTFOUNDINO)
      (fun _ => Shows p sb (m.mark.put LOSTFOUNDINO ip)) fun _ => True := by
  unfold iput
  refine Meets.bind (Q := fun _ => Shows p sb m.mark)
    (Meets.when (fun _ => markInode_meets h hm) fun hlt => absurd le_rfl hlt) fun _ => ?_
  refine Meets.bind (Q := fun _ => Shows p sb m.mark)
    (Meets.assert (fun _ _ hs => hs) fun _ _ _ => trivial) fun _ => ?_
  exact putInode_meets h (by decide) le_rfl

/-! ### The inodes and directories of a new file system -/

/-- The blocks of the first group behind its metadata, in their order. -/
def dataBlock (p : Params) (sb : Sb) (k : ℕ) : ℕ := sb.base 0 + (overhead p sb 0 + k)

/-- **What `fsinit` makes**: the blocks behind the metadata go to the resize inode, if there is one, to
`lost+found` and to the root, one after the other. -/
structure Filled (p : Params) (sb : Sb) (m : Made) : Prop where
  given : m.given = sb.resize.toNat + nblks_lostfound p + 1
  room : overhead p sb 0 + m.given ≤ sb.size 0
  dirs : m.dirs = 2
  lost : m.lost = true
  resize : sb.resize → ∃ n, m.node (RESIZEINO - 1) = some n ∧ n.e2di_mode = IFREG ||| 0o600 ∧
    ∀ k, n.e2di_blocks k = if k = NDADDR + 1 then dataBlock p sb 0 else 0
  lostfound : ∃ n, m.node (LOSTFOUNDINO - 1) = some n ∧ n.e2di_mode = IFDIR ||| 0o700 ∧
    ∀ k, n.e2di_blocks k =
      if k < nblks_lostfound p then dataBlock p sb (sb.resize.toNat + k) else 0
  root : ∃ n, m.node (Fsck.ROOTINO - 1) = some n ∧ n.e2di_mode = IFDIR ||| 0o755 ∧
    ∀ k, n.e2di_blocks k =
      if k = 0 then dataBlock p sb (sb.resize.toNat + nblks_lostfound p) else 0

/-- `lost+found` has a block at least. -/
theorem nblks_pos (h : Sizes p) : 0 < nblks_lostfound p := by
  have hdiv : 0 < LOSTFOUNDSIZE / p.bsize := Nat.div_pos (h.bsize_le.trans (by decide)) h.bsize_pos
  exact Nat.lt_min.2 ⟨hdiv, by decide⟩

/-- A block that was just taken is written. -/
theorem Shows.put_given {vol : Volume} {k : ℕ} {data : Data} (h : Ready p sb) (hs : Shows p sb m vol)
    (hk : overhead p sb 0 + k < sb.size 0) : Shows p sb m (vol.put p (dataBlock p sb k) data) := by
  have hsize := h.size_le 0
  refine hs.put_other h ?_ (.inr ?_)
  · unfold dataBlock
    omega
  · unfold dataBlock
    omega

theorem writeGiven_meets {k : ℕ} {data : Data} (h : Ready p sb) (hk : overhead p sb 0 + k < sb.size 0) :
    Meets (Shows p sb m) (wtfsBlock p (dataBlock p sb k) data) (fun _ => Shows p sb m)
      fun _ => True := by
  have hsize := h.size_le 0
  refine wtfsBlock_meets (h.near ?_) fun vol hs _ => hs.put_given h hk
  unfold dataBlock
  omega

/-- The reserved descriptor blocks are before the bitmaps. -/
theorem reserveBlock_meets {i : ℕ} (h : Ready p sb) (hres : sb.resize) (hsb : p.hasSb 0)
    (hi : i < sb.gdbcount + sb.reserved_ngdb) :
    Meets (Shows p sb m) (reserveBlock p sb i) (fun _ => Shows p sb m) fun _ => True := by
  have hat : bitmapAt p sb 0 = sb.base 0 + (1 + sb.gdbcount + sb.reserved_ngdb) := by
    unfold bitmapAt
    rw [if_pos hsb, if_pos hres]
  have hsum := h.toFits.bitmapAt_le 0
  have hend := h.first_end
  have hword := (h.tables 0 h.gcount).trans_lt h.bcount
  unfold reserveBlock
  refine Meets.bind (Q := fun _ => Shows p sb m)
    (Meets.assert (fun _ _ hs => hs) fun _ _ _ => trivial) fun _ => ?_
  refine Meets.bind (Q := fun _ => Shows p sb m)
    (Meets.assert (fun _ _ hs => hs) fun _ _ _ => trivial) fun _ => ?_
  rw [h.toFits.base_value h.gcount, u32_of_lt (by omega)]
  exact wtfsBlock_meets (h.near (by omega)) fun vol hs _ =>
    hs.put_other h (by omega) (.inl (by omega))

/-- The resize inode. -/
theorem init_resizeino_meets (h : Ready p sb) (hres : sb.resize) (hsb : p.hasSb 0)
    (hm : m.given = 0) (hdirs : m.dirs < 2 ^ 15) :
    Meets (Shows p sb m) (init_resizeino raw p sb) (fun _ vol => ∃ n : Node,
      (n.e2di_mode = IFREG ||| 0o600 ∧ ∀ k, n.e2di_blocks k = if k = NDADDR + 1 then dataBlock p sb 0 else 0) ∧
        overhead p sb 0 < sb.size 0 ∧
          Shows p sb ({ m with given := 1 }.put RESIZEINO n) vol) fun _ => True := by
  unfold init_resizeino
  refine Meets.bind (allocOrStop_meets h hdirs) fun b => ?_
  refine Meets.fact fun hroom => Meets.fact fun hb => ?_
  rw [hm, Nat.add_zero] at hroom
  have htake : m.take (IFREG ||| 0o600) = { m with given := 1 } := by
    unfold Made.take
    rw [if_neg (by decide), hm]
  have hb' : b = dataBlock p sb 0 := by
    rw [hb, hm]
    rfl
  rw [htake, hb']
  refine Meets.bind (Q := fun _ => Shows p sb { m with given := 1 }) ?_ fun _ => ?_
  · refine Meets.each_mem _ fun i hi => reserveBlock_meets h hres hsb ?_
    have := (List.mem_range'_1.1 hi).2
    omega
  refine Meets.bind (writeGiven_meets h (by omega)) fun _ => ?_
  exact (iput_meets h (by decide) (by decide)).relax fun _ vol hs =>
    ⟨_, ⟨rfl, fun _ => rfl⟩, hroom, hs⟩

/-- The blocks of `lost+found` behind the first one. -/
theorem gather_meets {n : ℕ} (h : Ready p sb) (hdirs : m.dirs < 2 ^ 15) :
    Meets (Shows p sb m) (gather (allocOrStop raw p sb p.bsize 0) n)
      (fun blks vol => blks = (List.range n).map (fun k => dataBlock p sb (m.given + k)) ∧
        (0 < n → overhead p sb 0 + (m.given + n) ≤ sb.size 0) ∧
          Shows p sb { m with given := m.given + n } vol) fun _ => True := by
  have hstep : ∀ l : List ℕ, Meets
      (fun vol => l = (List.range l.length).map (fun k => dataBlock p sb (m.given + k)) ∧
        (0 < l.length → overhead p sb 0 + (m.given + l.length) ≤ sb.size 0) ∧
          Shows p sb { m with given := m.given + l.length } vol)
      (allocOrStop raw p sb p.bsize 0)
      (fun b vol => l ++ [b] = (List.range (l ++ [b]).length).map
          (fun k => dataBlock p sb (m.given + k)) ∧
        (0 < (l ++ [b]).length → overhead p sb 0 + (m.given + (l ++ [b]).length) ≤ sb.size 0) ∧
          Shows p sb { m with given := m.given + (l ++ [b]).length } vol) fun _ => True := by
    intro l
    refine Meets.fact fun hl => Meets.fact fun _ => ?_
    refine (allocOrStop_meets (m := { m with given := m.given + l.length }) h hdirs).relax
      fun b vol hvol => ?_
    obtain ⟨hroom, hb, hs⟩ := hvol
    have hlen : (l ++ [b]).length = l.length + 1 := List.length_append
    refine ⟨?_, fun _ => ?_, ?_⟩
    · rw [hlen, List.range_succ, List.map_append, ← hl, hb]
      rfl
    · rw [hlen]
      show overhead p sb 0 + (m.given + l.length + 1) ≤ _
      exact hroom
    · rw [hlen]
      exact hs
  refine (Meets.gather (n := n) [] hstep).weaken (fun vol hs => ⟨rfl, fun h0 => absurd h0 (by decide), hs⟩)
    fun blks vol hvol => ?_
  obtain ⟨hlen, hl, hroom, hs⟩ := hvol
  rw [List.nil_append] at hl hroom hs
  rw [hlen] at hl hroom hs
  exact ⟨hl, hroom, hs⟩

/-- `lost+found`. -/
theorem init_lostfound_meets (h : Ready p sb) (hm : m.lost = false) (hdirs : m.dirs < 2 ^ 14) :
    Meets (Shows p sb m) (init_lostfound raw p sb) (fun _ vol => ∃ n : Node,
      (n.e2di_mode = IFDIR ||| 0o700 ∧ ∀ k, n.e2di_blocks k =
        if k < nblks_lostfound p then dataBlock p sb (m.given + k) else 0) ∧
        Shows p sb ({ m with
          given := m.given + nblks_lostfound p, dirs := m.dirs + 1, lost := true }.put
            LOSTFOUNDINO n) vol) fun _ => True := by
  have hn := nblks_pos h.sizes
  obtain ⟨n, hn'⟩ : ∃ n, nblks_lostfound p = n + 1 := ⟨nblks_lostfound p - 1, by omega⟩
  unfold init_lostfound
  refine Meets.bind (allocOrStop_meets h (by omega)) fun b => ?_
  refine Meets.fact fun hroom => Meets.fact fun hb => ?_
  have htake : m.take (IFDIR ||| 0o700) = { m with given := m.given + 1, dirs := m.dirs + 1 } := by
    unfold Made.take
    rw [if_pos (by decide)]
  have hb' : b = dataBlock p sb m.given := hb
  rw [htake, hb', hn', Nat.add_sub_cancel]
  refine Meets.bind (gather_meets (m := { m with given := m.given + 1, dirs := m.dirs + 1 }) h
    (by show m.dirs + 1 < _; omega)) fun blks => ?_
  refine Meets.fact fun hblks => Meets.fact fun hroom' => ?_
  refine Meets.bind (writeGiven_meets h hroom) fun _ => ?_
  refine Meets.bind (Meets.each_mem blks fun x hx => ?_) fun _ => ?_
  · rw [hblks] at hx
    obtain ⟨k, hk, rfl⟩ := List.mem_map.1 hx
    have hkn := List.mem_range.1 hk
    have := hroom' (by omega)
    refine writeGiven_meets h ?_
    show overhead p sb 0 + (m.given + 1 + k) < sb.size 0
    have hle : overhead p sb 0 + (m.given + 1 + n) ≤ sb.size 0 := hroom' (by omega)
    omega
  -- the blocks in the inode are those that were taken
  have hlist : ∀ k, (dataBlock p sb m.given :: blks).getD k 0 =
      if k < n + 1 then dataBlock p sb (m.given + k) else 0 := by
    intro k
    rw [hblks]
    cases k with
    | zero =>
      rw [if_pos (Nat.succ_pos n)]
      rfl
    | succ k =>
      rw [List.getD_cons_succ, List.getD_eq_getElem?_getD, List.getElem?_map]
      by_cases hk : k < n
      · rw [List.getElem?_range hk, if_pos (by omega)]
        show dataBlock p sb (m.given + 1 + k) = _
        congr 1
        omega
      · rw [List.getElem?_eq_none (by rw [List.length_range]; omega), if_neg (by omega)]
        rfl
  refine (iput_lost_meets (m := { m with given := m.given + 1 + n, dirs := m.dirs + 1 }) h hm).relax
    fun _ vol hs => ?_
  have hgiven : m.given + 1 + n = m.given + (n + 1) := by omega
  unfold Made.mark at hs
  simp only [hgiven] at hs
  exact ⟨_, ⟨rfl, hlist⟩, hs⟩

/-- The root. -/
theorem init_root_meets (h : Ready p sb) (hdirs : m.dirs < 2 ^ 15) :
    Meets (Shows p sb m) (init_root raw p sb) (fun _ vol => ∃ n : Node,
      (n.e2di_mode = IFDIR ||| 0o755 ∧ ∀ k, n.e2di_blocks k = if k = 0 then dataBlock p sb m.given else 0) ∧
        overhead p sb 0 + (m.given + 1) ≤ sb.size 0 ∧
          Shows p sb ({ m with given := m.given + 1, dirs := m.dirs + 1 }.put Fsck.ROOTINO n) vol)
      fun _ => True := by
  unfold init_root
  refine Meets.bind (allocOrStop_meets h hdirs) fun b => ?_
  refine Meets.fact fun hroom => Meets.fact fun hb => ?_
  have htake : m.take (IFDIR ||| 0o755) = { m with given := m.given + 1, dirs := m.dirs + 1 } := by
    unfold Made.take
    rw [if_pos (by decide)]
  have hb' : b = dataBlock p sb m.given := hb
  rw [htake, hb']
  refine Meets.bind (writeGiven_meets h hroom) fun _ => ?_
  exact (iput_meets h (by decide) (by decide)).relax fun _ vol hs =>
    ⟨_, ⟨rfl, fun _ => rfl⟩, hroom, hs⟩

/-- **The first inodes and directories.** -/
theorem fsinit_meets (h : Ready p sb) (hsb : p.hasSb 0) :
    Meets (Shows p sb .nothing) (fsinit raw p sb)
      (fun _ vol => ∃ m, Filled p sb m ∧ Shows p sb m vol) fun _ => True := by
  -- the part after the resize inode, which is there or not
  have hrest : ∀ m : Made, m.given = sb.resize.toNat → m.dirs = 0 → m.lost = false →
      (sb.resize → ∃ n, m.node (RESIZEINO - 1) = some n ∧ n.e2di_mode = IFREG ||| 0o600 ∧
        ∀ k, n.e2di_blocks k = if k = NDADDR + 1 then dataBlock p sb 0 else 0) →
      Meets (Shows p sb m) (do
        init_lostfound raw p sb
        init_root raw p sb) (fun _ vol => ∃ m, Filled p sb m ∧ Shows p sb m vol) fun _ => True := by
    intro m hgiven hdirs hlost hresize
    refine Meets.bind (init_lostfound_meets h hlost (by omega)) fun _ => ⟨fun vol hvol => ?_⟩
    obtain ⟨nl, hnl, hs⟩ := hvol
    refine (init_root_meets h ?_).relax (fun _ vol hvol => ?_) |>.of_run vol hs
    · show m.dirs + 1 < _
      omega
    obtain ⟨nr, hnr, hroom, hs⟩ := hvol
    refine ⟨_, ⟨?_, hroom, ?_, rfl, fun hres => ?_, ⟨nl, ?_, ?_⟩, ⟨nr, Made.put_self .., ?_⟩⟩, hs⟩
    · show m.given + nblks_lostfound p + 1 = _
      rw [hgiven]
    · show m.dirs + 1 + 1 = 2
      omega
    · obtain ⟨n, hn, hblocks⟩ := hresize hres
      refine ⟨n, ?_, hblocks⟩
      show Function.update (Function.update m.node (LOSTFOUNDINO - 1) (some nl)) (Fsck.ROOTINO - 1)
        (some nr) (RESIZEINO - 1) = some n
      rw [Function.update_of_ne (by decide), Function.update_of_ne (by decide)]
      exact hn
    · show Function.update (Function.update m.node (LOSTFOUNDINO - 1) (some nl)) (Fsck.ROOTINO - 1)
        (some nr) (LOSTFOUNDINO - 1) = some nl
      rw [Function.update_of_ne (by decide), Function.update_self]
    · rw [← hgiven]
      exact hnl
    · rw [← hgiven]
      exact hnr
  unfold fsinit
  refine Meets.bind (Q := fun _ vol => ∃ m : Made, m.given = sb.resize.toNat ∧ m.dirs = 0 ∧
    m.lost = false ∧ (sb.resize → ∃ n, m.node (RESIZEINO - 1) = some n ∧ n.e2di_mode = IFREG ||| 0o600 ∧
      ∀ k, n.e2di_blocks k = if k = NDADDR + 1 then dataBlock p sb 0 else 0) ∧ Shows p sb m vol)
    ?_ fun _ => ⟨fun vol hvol => ?_⟩
  · refine Meets.when (fun hres => ?_) fun hres vol hs => ?_
    · refine (init_resizeino_meets h hres hsb rfl (by decide)).relax fun _ vol hvol => ?_
      obtain ⟨n, hn, -, hs⟩ := hvol
      refine ⟨_, ?_, rfl, rfl, fun _ => ⟨n, Made.put_self .., hn⟩, hs⟩
      rw [hres]
      rfl
    · refine ⟨_, ?_, rfl, rfl, fun hc => absurd hc hres, hs⟩
      rw [Bool.not_eq_true] at hres
      rw [hres]
      rfl
  · obtain ⟨m, hgiven, hdirs, hlost, hresize, hs⟩ := hvol
    exact (hrest m hgiven hdirs hlost hresize).of_run vol hs

end

end Ext2fs.Newfs
