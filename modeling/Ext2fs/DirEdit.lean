import Ext2fs.DirSearch

/-!
# Changing a directory

`ext2_direnter` moves the records of a slot together and puts the new one behind them; `ext2_dirremove`
merges a record with the one before it.  Both trust the place in the inode.

* `Packing` — what holds in the loop that moves the records;
* `compactLoop_spec`, `placeEntry_spec` — the slot afterwards;
* `direnter_spec`, `dirremove_spec` — the whole directory, where a lookup has left the place.
-/

namespace Ext2fs

open Bytes

/-! ### One record -/

section

variable {m m' : Mem} {o x n : ℕ}

/-- Setting `e2d_reclen` leaves the rest of the record. -/
theorem put_reclen_same (m : Mem) (o x : ℕ) : SameEntry m (put 2 m (o + 4) x) o o := by
  intro i _ hi
  rcases hi with hi | hi
  · exact put_of_lt (by omega)
  · exact put_of_ge (by omega)

theorem put_reclen (h : x < 65536) : e2dReclen (put 2 m (o + 4) x) o = x :=
  le_put_of_lt (by norm_num; exact h)

/-- A record with its length set to what its name needs. -/
theorem trimmed_record (hx : x = dirRecLen (e2dNamlen m o)) :
    Record (put 2 m (o + 4) x) o ∧ e2dReclen (put 2 m (o + 4) x) o = x := by
  have hlt : x < 65536 := by
    have hname := e2dNamlen_lt m o
    have := dirRecLen_le (n := e2dNamlen m o) (by show _ ≤ 255; omega)
    omega
  have hlen := put_reclen (m := m) (o := o) hlt
  refine ⟨⟨?_, ?_⟩, hlen⟩
  · rw [hlen, hx]
    exact dirRecLen_dvd _
  · rw [hlen, (put_reclen_same m o x).namlen, hx]

/-- A copy of at least the entry has the entry. -/
theorem paste_same {src : Mem} {so : ℕ} (h : 8 + e2dNamlen src so ≤ n) :
    SameEntry src (paste m o src so n) so o := by
  intro i hi _
  exact paste_add (by omega)

end

/-! ### The new record -/

section

variable (env : EnterEnv) (ip : EntryIno) (name : List UInt8)

/-- The entry that `newdir` holds. -/
def newDirent : Dirent := ⟨ip.number, entryType env.filetype ip, name⟩

theorem entryType_lt (filetype : Bool) : entryType filetype ip < 256 := by
  unfold entryType modeToFt
  split
  · have : ∀ i < 16, [0, 5, 3, 0, 2, 0, 4, 0, 1, 0, 7, 0, 6, 0, 0].getD i 0 < 256 := by decide
    exact this _ (Nat.mod_lt _ (by decide))
  · decide

variable {env ip name}

/-- The record that is copied into the directory. -/
theorem newdir_fields (hino : ip.number < 2 ^ 32) (hlen : name.length ≤ EXT2FS_MAXNAMLEN) :
    e2dNamlen (newdir env ip name) 0 = name.length ∧
      direntAt (newdir env ip name) 0 = newDirent env ip name := by
  have hlen : name.length ≤ 255 := hlen
  have htype := entryType_lt ip env.filetype
  have hnumber : e2dIno (newdir env ip name) 0 = ip.number := by
    unfold e2dIno newdir
    rw [le_paste_below (by omega), le_put_below (by omega), le_put_below (by omega)]
    exact le_put_of_lt (by norm_num; omega)
  have hnamlen : e2dNamlen (newdir env ip name) 0 = name.length := by
    unfold e2dNamlen newdir
    rw [le_paste_below (by omega), le_put_below (by omega)]
    exact le_put_of_lt (by norm_num; omega)
  have htypes : e2dType (newdir env ip name) 0 = entryType env.filetype ip := by
    unfold e2dType newdir
    rw [le_paste_below (by omega)]
    exact le_put_of_lt (by norm_num; omega)
  have hname : e2dName (newdir env ip name) 0 = name := by
    apply List.ext_getElem
    · rw [e2dName_length, hnamlen]
    · intro i hi hi'
      have hbyte : newdir env ip name (8 + i) = name.getD (0 + i) 0 := by
        unfold newdir
        rw [paste_add (by omega)]
      simp only [e2dName, List.getElem_map, List.getElem_range]
      rw [Nat.zero_add, hbyte, Nat.zero_add, List.getD_eq_getElem?_getD, List.getElem?_eq_getElem hi']
      rfl
  refine ⟨hnamlen, ?_⟩
  show (⟨_, _, _⟩ : Dirent) = ⟨_, _, _⟩
  rw [hnumber, htypes, hname]

/-- **The new record in its place**, with the length it is given. -/
theorem paste_newdir (hino : 0 < ip.number ∧ ip.number < 2 ^ 32)
    (hname : name.length ≤ EXT2FS_MAXNAMLEN)
    {m : Mem} {o len : ℕ} (halign : 4 ∣ len) (hfits : dirRecLen name.length ≤ len) (hlen : len < 65536) :
    let m' := paste m o (put 2 (newdir env ip name) 4 len) 0 (dirRecLen name.length)
    Record m' o ∧ e2dReclen m' o = len ∧ liveAt m' o = [newDirent env ip name] := by
  obtain ⟨hnamlen, hentry⟩ := @newdir_fields env ip name hino.2 hname
  intro m'
  have hge := dirRecLen_ge name.length
  have hcopy : ∀ i < dirRecLen name.length, m' (o + i) = put 2 (newdir env ip name) 4 len (0 + i) :=
    fun i hi => paste_add hi
  have hsame : SameEntry (newdir env ip name) m' 0 o := by
    intro i hi hi'
    rw [hnamlen] at hi
    rw [hcopy i (by omega)]
    exact put_reclen_same _ 0 len i (by omega) hi'
  have hreclen : e2dReclen m' o = len := by
    rw [e2dReclen_congr (hcopy 4 (by omega)) (hcopy 5 (by omega))]
    exact put_reclen hlen
  have hlive : liveAt m' o = [newDirent env ip name] := by
    have hpos : e2dIno m' o ≠ 0 := by
      have : (direntAt m' o).ino = ip.number := by rw [hsame.direntAt, hentry]; rfl
      have : e2dIno m' o = ip.number := this
      omega
    rw [liveAt, if_neg hpos, hsame.direntAt, hentry]
  refine ⟨⟨?_, ?_⟩, hreclen, hlive⟩
  · rw [hreclen]
    exact halign
  · rw [hreclen, hsame.namlen, hnamlen]
    exact hfits

end

/-! ### Moving the records of a slot together -/

/-- The records of a slot from `p` up to `o` were moved together up to `ep`; those from `o` up to `q`
are where they were. -/
structure Packed (m₀ m : Mem) (p q ep o : ℕ) (run : List Dirent) : Prop where
  below : ∀ i < p, m i = m₀ i
  above : ∀ i, o ≤ i → m i = m₀ i
  chain : ∃ es rest : List Dirent, Chain m p ep es ∧ used es = ep - p ∧ run = es ++ rest ∧
    Chain m₀ o q rest
  le : ep ≤ o

/-- The same, with one more record behind them that has the space `dsize`; `spacefree` is what is left
up to `o`. -/
structure Packing (m₀ m : Mem) (p q : ℕ) (run : List Dirent) (ep o dsize : ℕ) (spacefree : ℤ) : Prop where
  below : ∀ i < p, m i = m₀ i
  above : ∀ i, o ≤ i → m i = m₀ i
  chain : ∃ es rest : List Dirent, Chain m p ep es ∧ used es = ep - p ∧
    run = es ++ liveAt m ep ++ rest ∧ Chain m₀ o q rest
  size : dsize = dirRecLen (e2dNamlen m ep)
  fits : ep + dsize ≤ o
  free : spacefree = (o : ℤ) - ep - dsize

section

variable {m₀ m : Mem} {p q ep o dsize : ℕ} {run : List Dirent} {spacefree : ℤ}

/-- The first record of the slot. -/
theorem Packing.start (h : Chain m₀ p q run) (hlt : p < q) :
    Packing m₀ m₀ p q run p (p + e2dReclen m₀ p) (dirRecLen (e2dNamlen m₀ p))
      (e2dReclen m₀ p - dirRecLen (e2dNamlen m₀ p)) := by
  obtain ⟨hr, rest, rfl, hrest⟩ := h.uncons hlt
  exact {
    below := fun _ _ => rfl
    above := fun _ _ => rfl
    chain := ⟨[], rest, .nil p, (Nat.sub_self p).symm, rfl, hrest⟩
    size := rfl
    fits := Nat.add_le_add_left hr.fits p
    free := by push_cast; ring }

/-- The last record gets its new length, or gives its space back. -/
def compactLast (m : Mem) (ep dsize : ℕ) (spacefree : ℤ) : Mem × ℕ × ℤ :=
  if e2dIno m ep ≠ 0 then (put 2 m (ep + 4) dsize, ep + dsize, spacefree)
  else (m, ep, spacefree + dsize)

theorem Packing.trim (h : Packing m₀ m p q run ep o dsize spacefree) :
    Packed m₀ (compactLast m ep dsize spacefree).1 p q (compactLast m ep dsize spacefree).2.1 o run ∧
      (compactLast m ep dsize spacefree).2.2 = (o : ℤ) - (compactLast m ep dsize spacefree).2.1 := by
  obtain ⟨es, rest, hes, hused, hrun, hrest⟩ := h.chain
  have hle := hes.le
  have hfits := h.fits
  have hfree := h.free
  unfold compactLast
  by_cases hino : e2dIno m ep = 0
  · rw [if_neg (not_not.mpr hino)]
    have hnone : liveAt m ep = [] := if_pos hino
    rw [hnone, List.append_nil] at hrun
    refine ⟨⟨h.below, h.above, ⟨es, rest, hes, hused, hrun, hrest⟩, ?_⟩, ?_⟩
    · show ep ≤ o
      omega
    · show spacefree + dsize = (o : ℤ) - ep
      omega
  · rw [if_pos hino]
    obtain ⟨hr, hlen⟩ := trimmed_record h.size
    have hsize := dirRecLen_ge (e2dNamlen m ep)
    rw [← h.size] at hsize
    have hlive : liveAt (put 2 m (ep + 4) dsize) ep = liveAt m ep := (put_reclen_same m ep dsize).liveAt
    have hone : used (liveAt m ep) = dsize := by
      have hlen : (direntAt m ep).name.length = e2dNamlen m ep := e2dName_length m ep
      rw [liveAt, if_neg hino, used_cons, used_nil, hlen, h.size]
      rfl
    have hchain : Chain (put 2 m (ep + 4) dsize) p (ep + dsize) (es ++ liveAt m ep) := by
      have hkept : Chain (put 2 m (ep + 4) dsize) p ep es :=
        hes.congr fun i _ hi => put_of_lt (by omega)
      have := hkept.snoc hr
      rwa [hlen, hlive] at this
    refine ⟨⟨?_, ?_, ⟨es ++ liveAt m ep, rest, hchain, ?_, hrun, hrest⟩, hfits⟩, ?_⟩
    · intro i hi
      rw [← h.below i hi]
      exact put_of_lt (by omega)
    · intro i hi
      rw [← h.above i hi]
      exact put_of_ge (by omega)
    · show _ = ep + dsize - p
      rw [used_append, hused, hone]
      omega
    · show spacefree = (o : ℤ) - (ep + dsize : ℕ)
      push_cast
      omega

/-- **The next record is moved** behind the others. -/
theorem Packed.move (h : Packed m₀ m p q ep o run) (hlt : o < q) :
    e2dReclen m o = e2dReclen m₀ o ∧ o + e2dReclen m₀ o ≤ q ∧ 0 < e2dReclen m₀ o ∧
      Packing m₀ (paste m ep m o (dirRecLen (e2dNamlen m o))) p q run ep (o + e2dReclen m o)
        (dirRecLen (e2dNamlen m o)) ((o : ℤ) - ep + e2dReclen m o - dirRecLen (e2dNamlen m o)) := by
  obtain ⟨es, rest, hes, hused, hrun, hrest⟩ := h.chain
  obtain ⟨hr, rest', rfl, hrest'⟩ := hrest.uncons hlt
  have hle := h.le
  have hep := hes.le
  have hpos := hr.pos
  have hfits := hr.fits
  have hlen : e2dReclen m o = e2dReclen m₀ o :=
    e2dReclen_congr (h.above _ (by omega)) (h.above _ (by omega))
  have horig : SameEntry m₀ m o o := fun i _ _ => h.above _ (by omega)
  have hname : e2dNamlen m o = e2dNamlen m₀ o := horig.namlen
  have hsame : SameEntry m (paste m ep m o (dirRecLen (e2dNamlen m o))) o ep := by
    apply paste_same
    have := dirRecLen_ge (e2dNamlen m o)
    omega
  refine ⟨hlen, hrest'.le, by omega, ?_⟩
  rw [hlen]
  rw [← hname] at hfits
  exact {
    below := fun i hi => (paste_of_lt (by omega)).trans (h.below i hi)
    above := fun i hi => (paste_of_ge (by omega)).trans (h.above i (by omega))
    chain := by
      refine ⟨es, rest', hes.congr fun i _ hi => paste_of_lt hi, hused, ?_, hrest'⟩
      rw [hrun, hsame.liveAt, horig.liveAt, List.append_assoc]
    size := by rw [hsame.namlen]
    fits := by omega
    free := by push_cast; ring }

/-- **The loop moves all records of the slot together.** -/
theorem compactLoop_spec (fuel : ℕ) (h : Packing m₀ m p q run ep o dsize spacefree) (hp : p ≤ o)
    (hq : o ≤ q) (hfuel : q ≤ fuel + o) :
    ∃ (m' : Mem) (ep' dsize' : ℕ) (spacefree' : ℤ),
      compactLoop ((q : ℤ) - p) p fuel m ep (o - p) dsize spacefree =
        some (m', ep', dsize', spacefree') ∧
      Packing m₀ m' p q run ep' q dsize' spacefree' := by
  induction fuel generalizing m ep o dsize spacefree with
  | zero =>
    obtain rfl : o = q := by omega
    refine ⟨m, ep, dsize, spacefree, ?_, h⟩
    rw [compactLoop, if_neg (by omega)]
  | succ fuel ih =>
    rcases Nat.eq_or_lt_of_le hq with rfl | hlt
    · refine ⟨m, ep, dsize, spacefree, ?_, h⟩
      rw [compactLoop, if_neg (by omega)]
    obtain ⟨hpacked, hsum⟩ := h.trim
    obtain ⟨hlen, hle, hpos, hnext⟩ := hpacked.move hlt
    have hround : compactLoop ((q : ℤ) - p) p (fuel + 1) m ep (o - p) dsize spacefree =
        compactLoop ((q : ℤ) - p) p fuel
          (paste (compactLast m ep dsize spacefree).1 (compactLast m ep dsize spacefree).2.1
            (compactLast m ep dsize spacefree).1 o
            (dirRecLen (e2dNamlen (compactLast m ep dsize spacefree).1 o)))
          (compactLast m ep dsize spacefree).2.1
          (o + e2dReclen (compactLast m ep dsize spacefree).1 o - p)
          (dirRecLen (e2dNamlen (compactLast m ep dsize spacefree).1 o))
          ((o : ℤ) - (compactLast m ep dsize spacefree).2.1 +
            e2dReclen (compactLast m ep dsize spacefree).1 o -
            dirRecLen (e2dNamlen (compactLast m ep dsize spacefree).1 o)) := by
      have hnep : p + (o - p) = o := by omega
      have hloc : ∀ n, o - p + n = o + n - p := by omega
      rw [compactLoop, if_pos (by omega)]
      show compactLoop _ p fuel
        (paste (compactLast m ep dsize spacefree).1 (compactLast m ep dsize spacefree).2.1
          (compactLast m ep dsize spacefree).1 (p + (o - p))
          (dirRecLen (e2dNamlen (compactLast m ep dsize spacefree).1 (p + (o - p)))))
        (compactLast m ep dsize spacefree).2.1
        (o - p + e2dReclen (compactLast m ep dsize spacefree).1 (p + (o - p)))
        (dirRecLen (e2dNamlen (compactLast m ep dsize spacefree).1 (p + (o - p))))
        ((compactLast m ep dsize spacefree).2.2 +
          e2dReclen (compactLast m ep dsize spacefree).1 (p + (o - p)) -
          dirRecLen (e2dNamlen (compactLast m ep dsize spacefree).1 (p + (o - p)))) = _
      rw [hnep, hloc, hsum]
    rw [hround]
    exact ih hnext (by omega) (by omega) (by omega)

/-- With enough space there is no panic, and the new record comes behind the last one. -/
theorem placeEntry_eq (newdir : Mem) {n k : ℕ} (hk : (compactLast m ep dsize spacefree).2.2 = k)
    (hlt : k < 2 ^ 32) (hn : n ≤ k) :
    placeEntry newdir n (m, ep, dsize, spacefree) =
      some (paste (compactLast m ep dsize spacefree).1 (compactLast m ep dsize spacefree).2.1
        (put 2 newdir 4 k) 0 n) := by
  unfold compactLast at hk ⊢
  unfold placeEntry
  by_cases hino : e2dIno m ep = 0
  · rw [if_neg (not_not.mpr hino)] at hk
    have hk : spacefree + dsize = k := hk
    simp only [hino, if_true, hk, u32_of_lt hlt, ne_eq, not_true_eq_false, if_false]
    exact if_neg (by omega)
  · rw [if_pos hino] at hk
    have hk : spacefree = k := hk
    simp only [hino, if_false, hk, u32_of_lt hlt, ne_eq, not_false_eq_true, if_true]
    exact if_neg (by omega)

/-- **The new entry is put behind the records of the slot**, and the slot is full of records again. -/
theorem placeEntry_spec (h : Packing m₀ m p q run ep q dsize spacefree) (hslot : Chain m₀ p q run)
    {env : EnterEnv} {ip : EntryIno} {name : List UInt8} (hino : 0 < ip.number ∧ ip.number < 2 ^ 32)
    (hname : name.length ≤ EXT2FS_MAXNAMLEN) (hroom : dirRecLen name.length + used run ≤ q - p)
    (hq : q - p < 65536) :
    ∃ m' : Mem, placeEntry (newdir env ip name) (dirRecLen name.length) (m, ep, dsize, spacefree) = some m' ∧
      Chain m' p q (run ++ [newDirent env ip name]) ∧ (∀ i < p, m' i = m₀ i) ∧
      ∀ i, q ≤ i → m' i = m₀ i := by
  obtain ⟨hpacked, hsum⟩ := h.trim
  have hplace := @placeEntry_eq m ep dsize spacefree (newdir env ip name) (dirRecLen name.length)
    (q - (compactLast m ep dsize spacefree).2.1)
  generalize compactLast m ep dsize spacefree = r at *
  obtain ⟨es, rest, hes, hused, rfl, hrest⟩ := hpacked.chain
  obtain rfl := hrest.eq_nil
  have hle := hpacked.le
  have hep := hes.le
  have halign := hes.dvd
  have halign' := hslot.dvd
  rw [List.append_nil] at hroom ⊢
  have hplace := hplace (by rw [hsum]; omega) (by omega) (by omega)
  obtain ⟨hr, hlen, hlive⟩ := @paste_newdir env ip name hino hname r.1 r.2.1 (q - r.2.1)
    (by omega) (by omega) (by omega)
  have hlt : ∀ i < r.2.1, paste r.1 r.2.1 (put 2 (newdir env ip name) 4 (q - r.2.1)) 0
      (dirRecLen name.length) i = r.1 i := fun i hi => paste_of_lt hi
  refine ⟨_, hplace, ?_, ?_, ?_⟩
  · have hchain := (hes.congr fun i _ hi => hlt i hi).snoc hr
    rwa [hlen, hlive, Nat.add_sub_cancel' hle] at hchain
  · intro i hi
    rw [hlt i (by omega)]
    exact hpacked.below i hi
  · intro i hi
    rw [paste_of_ge (by omega)]
    exact hpacked.above i hi

end

/-! ### The directory with one block changed -/

section

variable {fs : MExt2fs} {d : Directory} {blocks : List (List Dirent)} {k : ℕ} {es es' : List Dirent}
  {e : Dirent}

/-- One entry more in one block is one entry more in the directory. -/
theorem flatten_set_perm (h : blocks[k]? = some es) (hperm : es'.Perm (e :: es)) :
    (blocks.set k es').flatten.Perm (e :: blocks.flatten) := by
  induction blocks generalizing k with
  | nil => cases h
  | cons b blocks ih =>
    cases k with
    | zero =>
      obtain rfl : b = es := Option.some.inj h
      exact hperm.append_right _
    | succ k =>
      have h := ih h
      exact (h.append_left b).trans List.perm_middle

/-- A block of a well-formed directory is replaced by another chain. -/
theorem Directory.Wf.setBlock (hwf : d.Wf fs blocks) {m : Mem}
    (hchain : Chain m (k * fs.bsize) ((k + 1) * fs.bsize) es')
    (hframe : ∀ i, i < k * fs.bsize ∨ (k + 1) * fs.bsize ≤ i → m i = d.data i)
    (hnames : ((blocks.set k es').flatten.map Dirent.name).Nodup) :
    Directory.Wf fs { d with data := m } (blocks.set k es') where
  size := by
    rw [List.length_set]
    exact hwf.size
  chain j hj := by
    rw [List.length_set] at hj
    rw [List.getElem_set]
    split
    · rename_i heq
      exact heq ▸ hchain
    · rename_i hne
      refine (hwf.chain j hj).congr fun i hi hi' => hframe i ?_
      rcases Nat.lt_or_gt_of_ne hne with hlt | hgt
      · right
        exact le_trans (Nat.mul_le_mul_right _ hlt) hi
      · left
        exact lt_of_lt_of_le hi' (Nat.mul_le_mul_right _ hgt)
  names := hnames

/-- The empty blocks at the end are released. -/
theorem Directory.Wf.cut (hwf : d.Wf fs blocks) {n : ℕ} (hn : n ≤ blocks.length)
    (hempty : EmptyFrom fs blocks (n * fs.bsize)) :
    (d.cut (n * fs.bsize)).Wf fs (blocks.take n) ∧ (blocks.take n).flatten = blocks.flatten := by
  have hflat : (blocks.take n).flatten = blocks.flatten := by
    have hdrop : (blocks.drop n).flatten = [] := by
      rw [List.flatten_eq_nil_iff]
      intro b hb
      obtain ⟨j, hj, rfl⟩ := List.getElem_of_mem hb
      rw [List.getElem_drop]
      rw [List.length_drop] at hj
      exact hempty (n + j) (by omega) (Nat.mul_le_mul_right _ (Nat.le_add_right n j))
    conv_rhs => rw [← List.take_append_drop n blocks, List.flatten_append, hdrop, List.append_nil]
  have hlen : (blocks.take n).length = n := by
    rw [List.length_take]
    exact Nat.min_eq_left hn
  refine ⟨⟨?_, ?_, ?_⟩, hflat⟩
  · rw [hlen]
    rfl
  · intro j hj
    rw [List.getElem_take]
    refine (hwf.chain j (by omega)).congr fun i _ hi => if_pos ?_
    exact lt_of_lt_of_le hi (Nat.mul_le_mul_right _ (hlen ▸ hj))
  · rw [hflat]
    exact hwf.names

/-- A block with one entry is added at the end. -/
theorem Directory.Wf.addBlock (hwf : d.Wf fs blocks) {m : Mem}
    (hchain : Chain m (blocks.length * fs.bsize) ((blocks.length + 1) * fs.bsize) es)
    (hframe : ∀ i < blocks.length * fs.bsize, m i = d.data i)
    (hnames : ((blocks ++ [es]).flatten.map Dirent.name).Nodup) :
    Directory.Wf fs { d with data := m, size := (blocks.length + 1) * fs.bsize } (blocks ++ [es]) where
  size := by
    rw [List.length_append]
    rfl
  chain j hj := by
    rw [List.length_append, List.length_singleton] at hj
    rcases Nat.lt_succ_iff_lt_or_eq.mp hj with hj | rfl
    · rw [List.getElem_append_left hj]
      refine (hwf.chain j hj).congr fun i _ hi => hframe i ?_
      exact lt_of_lt_of_le hi (Nat.mul_le_mul_right _ hj)
    · rw [List.getElem_append_right le_rfl]
      simpa using hchain
  names := hnames

end

/-! ### `ext2_direnter` -/

/-- Nothing fails while the directory is changed. -/
structure EnterEnv.Ok (env : EnterEnv) : Prop where
  read : ∀ j, env.read j = true
  balloc : env.balloc = none
  write : env.write = true
  truncate : env.truncate = .done

section

variable {fs : MExt2fs} {d : Directory} {blocks : List (List Dirent)} {env : EnterEnv} {ip : EntryIno}
  {name : List UInt8}

/-- The names stay different with a new one. -/
theorem names_nodup (hwf : d.Wf fs blocks) (hnew : ∀ e ∈ blocks.flatten, e.name ≠ name)
    {es : List Dirent} (hperm : es.Perm (newDirent env ip name :: blocks.flatten)) :
    (es.map Dirent.name).Nodup := by
  rw [(hperm.map Dirent.name).nodup_iff, List.map_cons, List.nodup_cons]
  refine ⟨?_, hwf.names⟩
  intro hmem
  obtain ⟨e, he, heq⟩ := List.mem_map.mp hmem
  exact hnew e he heq

/-- **A new entry in a new block.** -/
theorem enterFresh_spec (hfrag : fs.fsize = fs.bsize) (hwf : d.Wf fs blocks) (hmap : d.extents = false)
    (henv : env.Ok) (hoffset : d.offset = d.size)
    (hino : 0 < ip.number ∧ ip.number < 2 ^ 32) (hname : name.length ≤ EXT2FS_MAXNAMLEN)
    (hnew : ∀ e ∈ blocks.flatten, e.name ≠ name) :
    ∃ d', enterFresh fs env (newdir env ip name) (dirRecLen name.length) d = (.done none, d') ∧
      d'.Wf fs (blocks ++ [[newDirent env ip name]]) := by
  have hB := fs.bsize_cases
  have hsize := hwf.size
  have hneeded := dirRecLen_le hname
  have hround : roundup2 d.size fs.bsize ≤ (d.offset.toNat : ℤ) := by
    rw [hoffset, hsize, roundup2_mul _ fs.bsize_pos]
    exact le_rfl
  have hnewsize : (roundup2 ((max d.size (d.offset.toNat + dirRecLen name.length) : ℕ)) fs.bsize).toNat =
      (blocks.length + 1) * fs.bsize := by
    have hpos := dirRecLen_ge name.length
    have hmax : max d.size (d.offset.toNat + dirRecLen name.length) =
        blocks.length * fs.bsize + dirRecLen name.length := by
      rw [hoffset, Int.toNat_natCast, ← hsize]
      exact max_eq_right (Nat.le_add_right _ _)
    have hle : blocks.length * fs.bsize + dirRecLen name.length ≤ (blocks.length + 1) * fs.bsize := by
      rw [Nat.add_mul, Nat.one_mul]
      omega
    obtain ⟨e, he, hxe, hel⟩ := roundup2_le fs.bsize_pos hle
    have hge : blocks.length + 1 ≤ e := by
      by_contra hlt
      have := Nat.mul_le_mul_right fs.bsize (by omega : e ≤ blocks.length)
      omega
    rw [hmax, he, Int.toNat_natCast, Nat.le_antisymm hel hge]
  have hrun : enterFresh fs env (newdir env ip name) (dirRecLen name.length) d =
      (.done none, { d with
        data := paste (zero d.data d.offset.toNat (d.offset.toNat + fs.bsize)) d.offset.toNat
          (put 2 (newdir env ip name) 4 fs.bsize) 0 (dirRecLen name.length)
        size := (blocks.length + 1) * fs.bsize }) := by
    have hneg : ¬d.offset < 0 := by omega
    have hwhole : ¬fs.fsize < fs.bsize := hfrag.not_lt
    rw [enterFresh]
    simp only [hmap, Bool.false_eq_true, and_false, hwhole, if_false, hneg, henv.balloc, henv.write,
      if_true, hround]
    rw [← hnewsize]
  rw [hrun]
  have hoff : d.offset.toNat = blocks.length * fs.bsize := by omega
  rw [hoff]
  obtain ⟨hr, hlen, hlive⟩ := @paste_newdir env ip name hino hname
    (zero d.data (blocks.length * fs.bsize) (blocks.length * fs.bsize + fs.bsize))
    (blocks.length * fs.bsize) fs.bsize (by omega) (by omega) (by omega)
  refine ⟨_, rfl, hwf.addBlock ?_ ?_ ?_⟩
  · have hchain := Chain.single hr
    rw [hlen, hlive] at hchain
    rw [Nat.add_mul, Nat.one_mul]
    exact hchain
  · intro i hi
    rw [paste_of_lt hi]
    exact if_neg (by omega)
  · apply names_nodup hwf hnew
    rw [List.flatten_append]
    exact List.perm_append_singleton _ _

/-- **A new entry in the slot.** -/
theorem enterSlot_spec (hwf : d.Wf fs blocks) (hmap : d.extents = false) (henv : env.Ok) {k p q n : ℕ}
    {pre run post : List Dirent}
    (hslot : Slot fs d.data blocks (dirRecLen name.length) k p q pre run post) (hoffset : d.offset = p)
    (hcount : d.count = q - p) (hend : d.endoff = (n * fs.bsize : ℕ)) (hkn : k < n)
    (hn : n ≤ blocks.length) (hempty : EmptyFrom fs blocks (n * fs.bsize)) (hsmall : d.size < 2 ^ 64)
    (hino : 0 < ip.number ∧ ip.number < 2 ^ 32) (hname : name.length ≤ EXT2FS_MAXNAMLEN)
    (hnew : ∀ e ∈ blocks.flatten, e.name ≠ name) :
    ∃ d' blocks', enterSlot fs env (newdir env ip name) (dirRecLen name.length) d = (.done none, d') ∧
      d'.Wf fs blocks' ∧ blocks'.flatten.Perm (newDirent env ip name :: blocks.flatten) := by
  have hB := fs.bsize_cases
  have hpq := hslot.lt
  have hp := hslot.before.le
  have hq := hslot.behind.le
  have hk : k < blocks.length := Nat.lt_of_lt_of_le hkn hn
  have hqsize : q ≤ d.size := by
    rw [hwf.size]
    exact le_trans hq (Nat.mul_le_mul_right _ hk)
  have hspan : q - p < 65536 := by
    rw [Nat.add_mul, Nat.one_mul] at hq
    omega
  -- the slot
  have hstart := Packing.start hslot.chain hpq
  obtain ⟨hr, rest, -, hrest⟩ := hslot.chain.uncons hpq
  obtain ⟨m₁, ep, dsize, spacefree, hloop, hpacking⟩ :=
    compactLoop_spec (q - p) hstart (Nat.le_add_right _ _) hrest.le (by omega)
  obtain ⟨m₂, hplace, hchain, hbelow, habove⟩ :=
    @placeEntry_spec _ _ _ _ _ _ _ _ hpacking hslot.chain env ip name hino hname hslot.room hspan
  -- the directory with the block changed
  have hblock : Chain m₂ (k * fs.bsize) ((k + 1) * fs.bsize) (pre ++ (run ++ [newDirent env ip name]) ++ post) :=
    ((hslot.before.congr fun i _ hi => hbelow i hi).append hchain).append
      (hslot.behind.congr fun i hi _ => habove i hi)
  have hperm : (blocks.set k (pre ++ (run ++ [newDirent env ip name]) ++ post)).flatten.Perm
      (newDirent env ip name :: blocks.flatten) := by
    apply flatten_set_perm hslot.block
    rw [← List.append_assoc, List.append_assoc (pre ++ run), List.singleton_append]
    exact List.perm_middle
  have hwf₂ := hwf.setBlock hblock (by
    intro i hi
    rcases hi with hi | hi
    · exact hbelow i (by omega)
    · exact habove i (by omega)) (names_nodup hwf hnew hperm)
  have hempty₂ : EmptyFrom fs (blocks.set k (pre ++ (run ++ [newDirent env ip name]) ++ post))
      (n * fs.bsize) := by
    intro j hj hge
    have hnj : n ≤ j := Nat.le_of_mul_le_mul_right hge fs.bsize_pos
    rw [List.getElem_set_ne (by omega)]
    exact hempty j (by simpa using hj) hge
  have hrun : enterSlot fs env (newdir env ip name) (dirRecLen name.length) d =
      truncateTail env { d with data := m₂ } := by
    have hu64 : ¬d.size < u64 (d.offset + d.count) := by
      have hsum : d.offset + d.count = q := by omega
      rw [hsum, u64, Int.emod_eq_of_lt (Int.natCast_nonneg q) (by omega), Int.toNat_natCast]
      omega
    have hat : Directory.atoff fs env.read d.offset := ⟨by omega, henv.read _⟩
    have hep : d.offset.toNat = p := by omega
    have hloop' : compactLoop d.count p d.count.toNat d.data p (e2dReclen d.data p)
        (dirRecLen (e2dNamlen d.data p)) (e2dReclen d.data p - dirRecLen (e2dNamlen d.data p)) =
        some (m₁, ep, dsize, spacefree) := by
      rw [← hloop, hcount, Nat.add_sub_cancel_left]
      congr 1
      omega
    rw [enterSlot]
    simp only [hu64, if_false, hat, if_true, hep, hloop', hplace, henv.write, or_true]
  rw [hrun, truncateTail]
  have hu64 : u64 d.endoff = n * fs.bsize := by
    have hle : n * fs.bsize ≤ d.size := by
      rw [hwf.size]
      exact Nat.mul_le_mul_right _ hn
    rw [hend, u64, Int.emod_eq_of_lt (Int.natCast_nonneg _) (by omega), Int.toNat_natCast]
  by_cases hcut : d.endoff ≠ 0 ∧ u64 d.endoff < d.size
  · obtain ⟨hwf₃, hflat⟩ := hwf₂.cut (by rwa [List.length_set]) hempty₂
    have hdirect : ¬d.extents = true := by rw [hmap]; exact Bool.false_ne_true
    rw [if_pos hcut, if_neg hdirect, henv.truncate]
    refine ⟨_, _, rfl, ?_, hflat ▸ hperm⟩
    show (Directory.cut _ (u64 d.endoff)).Wf fs _
    rw [hu64]
    exact hwf₃
  · rw [if_neg hcut]
    exact ⟨_, _, rfl, hwf₂, hperm⟩

/-- **`ext2_direnter` makes the entry** in a block-mapped directory, where a lookup has left a slot for
it. -/
theorem direnter_spec (hfrag : fs.fsize = fs.bsize) (hwf : d.Wf fs blocks) (hmap : d.extents = false)
    (henv : env.Ok) (hready : EnterReady fs d blocks name)
    (hsmall : d.size < 2 ^ 64) (hino : 0 < ip.number ∧ ip.number < 2 ^ 32)
    (hname : name.length ≤ EXT2FS_MAXNAMLEN) (hnew : ∀ e ∈ blocks.flatten, e.name ≠ name) :
    ∃ d' blocks', ext2Direnter fs env ip name d = (.done none, d') ∧ d'.Wf fs blocks' ∧
      blocks'.flatten.Perm (newDirent env ip name :: blocks.flatten) := by
  have hsize : dirRecLen (e2dNamlen (newdir env ip name) 0) = dirRecLen name.length := by
    rw [(newdir_fields hino.2 hname).1]
  rw [ext2Direnter, hsize]
  rcases hready with ⟨hcount, hoffset, -⟩ |
    ⟨k, p, q, n, pre, run, post, hslot, hoffset, hcount, hend, hkn, hn, hempty⟩
  · have hstart : ¬d.offset % fs.bsize ≠ 0 := by
      rw [not_not, hoffset, hwf.size]
      push_cast
      exact Int.mul_emod_left _ _
    obtain ⟨d', hrun, hwf'⟩ := enterFresh_spec hfrag hwf hmap henv hoffset hino hname hnew
    refine ⟨d', _, ?_, hwf', ?_⟩
    · simp only [hcount, if_true, hstart, if_false]
      exact hrun
    · rw [List.flatten_append]
      exact List.perm_append_singleton _ _
  · have hne : d.count ≠ 0 := by
      have := hslot.lt
      omega
    obtain ⟨d', blocks', hrun, hwf', hperm⟩ := enterSlot_spec hwf hmap henv hslot hoffset hcount hend hkn
      hn hempty hsmall hino hname hnew
    exact ⟨d', blocks', (if_neg hne).trans hrun, hwf', hperm⟩

/-! ### `ext2_dirremove` -/

/-- A block loses one entry. -/
theorem Directory.Wf.removed (hwf : d.Wf fs blocks) {k : ℕ} {pre post : List Dirent} {e : Dirent}
    (hblock : blocks[k]? = some (pre ++ e :: post)) {m : Mem}
    (hchain : Chain m (k * fs.bsize) ((k + 1) * fs.bsize) (pre ++ post))
    (hframe : ∀ i, i < k * fs.bsize ∨ (k + 1) * fs.bsize ≤ i → m i = d.data i) :
    Directory.Wf fs { d with data := m } (blocks.set k (pre ++ post)) ∧
      blocks.flatten.Perm (e :: (blocks.set k (pre ++ post)).flatten) := by
  have hk : k < blocks.length := by
    by_contra hge
    rw [List.getElem?_eq_none (Nat.le_of_not_lt hge)] at hblock
    cases hblock
  have hperm : blocks.flatten.Perm (e :: (blocks.set k (pre ++ post)).flatten) := by
    have hset : (blocks.set k (pre ++ post))[k]? = some (pre ++ post) := by
      simp [hk]
    have hback : (blocks.set k (pre ++ post)).set k (pre ++ e :: post) = blocks := by
      rw [List.set_set]
      obtain ⟨_, hget⟩ := List.getElem?_eq_some_iff.mp hblock
      rw [← hget]
      exact List.set_getElem_self hk
    have := flatten_set_perm hset (@List.perm_middle _ e pre post)
    rwa [hback] at this
  refine ⟨hwf.setBlock hchain hframe ?_, hperm⟩
  have hnames := ((hperm.map Dirent.name).nodup_iff).mp hwf.names
  rw [List.map_cons, List.nodup_cons] at hnames
  exact hnames.2

/-- **`ext2_dirremove` takes the entry out**, where a lookup has left its record. -/
theorem dirremove_spec (hwf : d.Wf fs blocks) (henv : env.Ok) (hready : RemoveReady fs d blocks name) :
    ∃ d' blocks' e, ext2Dirremove fs env d = (.done none, d') ∧ d'.Wf fs blocks' ∧ e.name = name ∧
      blocks.flatten.Perm (e :: blocks'.flatten) := by
  obtain ⟨k, o, pre, post, hc, hlt, hino, hname, hoffset, hplace⟩ := hready
  have hB := fs.bsize_cases
  obtain ⟨hr, post', hpost, hle, hnext⟩ := hc.next hlt
  have hlive : liveAt d.data o = [direntAt d.data o] := if_neg hino
  rw [hlive, List.singleton_append, List.cons.injEq] at hpost
  obtain ⟨-, rfl⟩ := hpost
  have hpos := hr.pos
  rcases hplace with ⟨hstart, hcount⟩ | ⟨prev, pre', hpre', hrprev, hprev, hpre, hcount⟩
  · -- the first record of the block is marked as unused
    have hpre : pre = [] := by
      have := hc.before
      rw [← hstart] at this
      exact this.eq_nil
    have hlen : e2dReclen (put 4 d.data o 0) o = e2dReclen d.data o :=
      e2dReclen_congr (put_of_ge (by omega)) (put_of_ge (by omega))
    have hnamlen : e2dNamlen (put 4 d.data o 0) o = e2dNamlen d.data o := le_put_above (by omega)
    have hnone : liveAt (put 4 d.data o 0) o = [] := if_pos (le_put_of_lt (by norm_num))
    have hr' : Record (put 4 d.data o 0) o := ⟨by rw [hlen]; exact hr.aligned, by
      rw [hlen, hnamlen]; exact hr.fits⟩
    have hchain : Chain (put 4 d.data o 0) (k * fs.bsize) ((k + 1) * fs.bsize) (pre ++ post) := by
      have hbehind : Chain (put 4 d.data o 0) (o + e2dReclen d.data o) ((k + 1) * fs.bsize) post :=
        hnext.behind.congr fun i hi _ => put_of_ge (by omega)
      rw [← hlen] at hbehind
      have := Chain.cons hr' hbehind
      rw [hnone, ← hpre] at this
      rwa [← hstart]
    obtain ⟨hwf', hperm⟩ := hwf.removed hc.block hchain (by
      intro i hi
      rcases hi with hi | hi
      · exact put_of_lt (by omega)
      · exact put_of_ge (by omega))
    have hrun : ext2Dirremove fs env d = (.done none, { d with data := put 4 d.data o 0 }) := by
      have hat : Directory.atoff fs env.read d.offset := ⟨by omega, henv.read _⟩
      have hep : d.offset.toNat = o := by omega
      rw [ext2Dirremove, if_pos hcount, if_pos hat, writeDir, henv.write, if_pos rfl, hep]
    exact ⟨_, _, _, hrun, hwf', hname, hperm⟩
  · -- the record before it takes the space
    have hpos' := hrprev.pos
    have hge := hpre'.le
    have hlen : e2dReclen (put 2 d.data (prev + 4) (e2dReclen d.data prev + e2dReclen d.data o)) prev =
        e2dReclen d.data prev + e2dReclen d.data o := by
      apply put_reclen
      rw [Nat.add_mul, Nat.one_mul] at hle
      omega
    have hsame := put_reclen_same d.data prev (e2dReclen d.data prev + e2dReclen d.data o)
    have hr' : Record (put 2 d.data (prev + 4) (e2dReclen d.data prev + e2dReclen d.data o)) prev := by
      refine ⟨?_, ?_⟩
      · rw [hlen]
        exact Nat.dvd_add hrprev.aligned hr.aligned
      · rw [hlen, hsame.namlen]
        exact le_trans hrprev.fits (Nat.le_add_right _ _)
    have hstop : prev + (e2dReclen d.data prev + e2dReclen d.data o) = o + e2dReclen d.data o := by
      omega
    have hchain : Chain (put 2 d.data (prev + 4) (e2dReclen d.data prev + e2dReclen d.data o))
        (k * fs.bsize) ((k + 1) * fs.bsize) (pre ++ post) := by
      have hkept : Chain (put 2 d.data (prev + 4) (e2dReclen d.data prev + e2dReclen d.data o))
          (k * fs.bsize) prev pre' := hpre'.congr fun i _ hi => put_of_lt (by omega)
      have hbefore := hkept.snoc hr'
      rw [hlen, hsame.liveAt, hstop, ← hpre] at hbefore
      exact hbefore.append (hnext.behind.congr fun i hi _ => put_of_ge (by omega))
    obtain ⟨hwf', hperm⟩ := hwf.removed hc.block hchain (by
      intro i hi
      rcases hi with hi | hi
      · exact put_of_lt (by omega)
      · exact put_of_ge (by omega))
    have hrun : ext2Dirremove fs env d = (.done none, { d with
        data := put 2 d.data (prev + 4) (e2dReclen d.data prev + e2dReclen d.data o) }) := by
      have hdiff : d.offset - d.count = prev := by omega
      have hat : Directory.atoff fs env.read (d.offset - d.count) := ⟨by omega, henv.read _⟩
      have hne : d.count ≠ 0 := by omega
      have hep : (d.offset - d.count).toNat = prev := by omega
      rw [ext2Dirremove, if_neg hne, if_pos hat]
      simp only [hep, hprev, writeDir, henv.write, Bool.or_true, if_true]
    exact ⟨_, _, _, hrun, hwf', hname, hperm⟩

/-! ### A lookup and its change -/

/-- **A lookup and the change after it**, in a block-mapped directory of less than 2 GiB that is not
removed, on a volume without fragments: an entry with a new name is made, an entry that is there is taken
out, and all else stays.  `EnterEnv.Ok` says that the reads, the writes and the calls of `ext2_balloc` and
`ext2_truncate` do not fail. -/
theorem lookup_and_change (hfrag : fs.fsize = fs.bsize) (hwf : d.Wf fs blocks)
    (hmap : d.extents = false)
    (hsmall : d.size < 2 ^ 31) (hlive : d.nlink ≠ 0)
    {lenv : LookupEnv} (hread : ∀ j, lenv.read j = true) (hvget : ∀ ino, lenv.vget ino = none)
    (hsticky : lenv.sticky = false) (henv : env.Ok) :
    (∀ (ip : EntryIno) (name : List UInt8), 0 < ip.number ∧ ip.number < 2 ^ 32 →
      1 ≤ name.length ∧ name.length ≤ EXT2FS_MAXNAMLEN → (∀ e ∈ blocks.flatten, e.name ≠ name) →
      ∃ d₁ d₂ blocks', ext2Lookup fs lenv .create name d = (.justReturn, d₁) ∧
        ext2Direnter fs env ip name d₁ = (.done none, d₂) ∧ d₂.Wf fs blocks' ∧
        blocks'.flatten.Perm (newDirent env ip name :: blocks.flatten)) ∧
    ∀ e ∈ blocks.flatten,
      ∃ d₁ d₂ blocks', ext2Lookup fs lenv .delete e.name d = (.found e.ino, d₁) ∧
        ext2Dirremove fs env d₁ = (.done none, d₂) ∧ d₂.Wf fs blocks' ∧
        blocks.flatten.Perm (e :: blocks'.flatten) := by
  constructor
  · intro ip name hino hname hnew
    obtain ⟨offset, count, endoff, hlookup, hready⟩ :=
      lookup_create hwf hsmall hlive hread (show NameiOp.create.wantsSlot = true from rfl) hnew
    have hwf₁ : Directory.Wf fs { d with offset := offset, count := count, endoff := endoff } blocks :=
      hwf.congr rfl rfl
    have hsmall₁ : d.size < 2 ^ 64 := lt_trans hsmall (by norm_num)
    obtain ⟨d₂, blocks', hrun, hwf', hperm⟩ := direnter_spec hfrag hwf₁ hmap henv hready hsmall₁ hino
      hname.2 hnew
    exact ⟨_, d₂, blocks', hlookup, hrun, hwf', hperm⟩
  · intro e he
    obtain ⟨offset, count, hlookup, hready⟩ := lookup_delete hwf hsmall hread hvget hsticky he
    have hwf₁ : Directory.Wf fs { d with offset := offset, count := count } blocks := hwf.congr rfl rfl
    obtain ⟨d₂, blocks', e', hrun, hwf', hname, hperm⟩ := dirremove_spec hwf₁ henv hready
    have he' : e' ∈ blocks.flatten := hperm.symm.mem_iff.mp List.mem_cons_self
    obtain rfl : e' = e := List.inj_on_of_nodup_map hwf.names he' he hname
    exact ⟨_, d₂, blocks', hlookup, hrun, hwf', hperm⟩

end

/-- A directory of `n` blocks of 4 KiB without entries. -/
def unusedDir (n : ℕ) : Directory where
  data i := if i % 4096 = 5 then 16 else 0
  size := n * 4096
  nlink := 2
  number := 12
  count := 0
  offset := 0
  endoff := 0
  diroff := 0

/-- Its blocks are single records that are not in use. -/
theorem unusedDir_wf (n : ℕ) : (unusedDir n).Wf volume4k (List.replicate n []) where
  size := by
    rw [List.length_replicate]
    rfl
  chain k hk := by
    have hbyte : ∀ j < 4096, (unusedDir n).data (k * 4096 + j) = if j = 5 then 16 else 0 := by
      intro j hj
      show (if (k * 4096 + j) % 4096 = 5 then 16 else 0) = _
      rw [Nat.add_comm, Nat.add_mul_mod_self_right, Nat.mod_eq_of_lt hj]
    have hlen : e2dReclen (unusedDir n).data (k * 4096) = 4096 := by
      have : e2dReclen (unusedDir n).data (k * 4096) = e2dReclen (unusedDir n).data 0 :=
        e2dReclen_congr (by rw [hbyte 4 (by omega)]; rfl) (by rw [hbyte 5 (by omega)]; rfl)
      rw [this]
      show e2dReclen (fun i => if i % 4096 = 5 then 16 else 0) 0 = 4096
      decide
    have hnamlen : e2dNamlen (unusedDir n).data (k * 4096) = 0 := by
      have : e2dNamlen (unusedDir n).data (k * 4096) = le 1 (fun _ => 0) 0 := by
        apply le_congr
        intro i hi
        rw [Nat.add_assoc, hbyte (6 + i) (by omega), if_neg (by omega)]
      rw [this]
      decide
    have hino : e2dIno (unusedDir n).data (k * 4096) = 0 := by
      have : e2dIno (unusedDir n).data (k * 4096) = le 4 (fun _ => 0) 0 := by
        apply le_congr
        intro i hi
        rw [hbyte i (by omega), if_neg (by omega)]
      rw [this]
      decide
    have hr : Record (unusedDir n).data (k * 4096) :=
      ⟨by rw [hlen]; decide, by rw [hnamlen, hlen]; decide⟩
    have hchain := Chain.single hr
    rw [hlen, liveAt, if_pos hino, ← Nat.succ_mul] at hchain
    rw [List.getElem_replicate]
    exact hchain
  names := by
    rw [List.flatten_replicate_nil]
    exact List.nodup_nil

/-- All reads of a lookup are good. -/
def goodLookup : LookupEnv := ⟨fun _ => true, fun _ => none, false⟩

/-- Nothing fails while the directory is changed. -/
def goodEnter : EnterEnv := ⟨true, false, fun _ => true, none, true, .done, fun _ => 0, fun _ => 0⟩

theorem goodEnter_ok : goodEnter.Ok := ⟨fun _ => rfl, rfl, rfl, rfl⟩

/-- A file is entered in an empty directory of one block. -/
theorem lookup_and_change_example :
    ∃ d₁ d₂ blocks', ext2Lookup volume4k goodLookup .create [97] (unusedDir 1) = (.justReturn, d₁) ∧
      ext2Direnter volume4k goodEnter ⟨13, 0x81a4⟩ [97] d₁ = (.done none, d₂) ∧ d₂.Wf volume4k blocks' ∧
      blocks'.flatten.Perm (newDirent goodEnter ⟨13, 0x81a4⟩ [97] :: (List.replicate 1 []).flatten) :=
  (lookup_and_change rfl (unusedDir_wf 1) rfl (by decide) (by decide) (fun _ => rfl) (fun _ => rfl) rfl
    goodEnter_ok).1 ⟨13, 0x81a4⟩ [97] (by decide) (by decide) (fun e he => absurd he (by simp))

/-- **A directory of 2 GiB takes no entry**: the offset for it comes out negative. -/
theorem hugeDir_refuses :
    (unusedDir 524288).Wf volume4k (List.replicate 524288 []) ∧ (unusedDir 524288).nlink ≠ 0 ∧
      ∃ d₁, ext2Lookup volume4k goodLookup .create [97] (unusedDir 524288) = (.justReturn, d₁) ∧
        (ext2Direnter volume4k goodEnter ⟨13, 0x81a4⟩ [97] d₁).1 = .done (some .einval) := by
  refine ⟨unusedDir_wf _, by decide, _, rfl, ?_⟩
  rfl

end Ext2fs
