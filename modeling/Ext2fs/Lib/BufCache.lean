import Mathlib.Data.List.Basic
import Mathlib.Logic.Function.Basic

/-!
# A cache of disk blocks with delayed writes

A buffer has the key it is found under, the disk address it is written to and its contents.  A caller
takes a buffer out of the cache and gives it back; one that was changed is written at once, or stays
dirty until the cache writes it.  Nothing in the cache keeps one disk block from having two buffers
under two keys.

* `Sole` — the buffer found under a key is the one of an address, and the only one;
* `Coherent` — what the cache shows at every address in use is what was stored there last;
* `Coherent.give` — a store through a sole buffer keeps the cache coherent;
* `Coherent.flush`, `Coherent.evict` — so does what the cache does on its own.
-/

namespace BufCache

variable {K A D L : Type}

/-- A buffer; one without an address belongs to a hole. -/
structure Buf (K A D : Type) where
  key : K
  addr : Option A
  data : D
  dirty : Bool

/-- The buffers that no caller holds, and the disk. -/
structure Cache (K A D : Type) where
  bufs : List (Buf K A D)
  disk : A → D

namespace Cache

section

variable [DecidableEq K] [DecidableEq A] (c : Cache K A D)

/-- The buffer with a key is taken out of the cache; `miss` is the address and the contents a new
buffer gets. -/
def get (k : K) (miss : Option (Option A × D)) : Option (Buf K A D × Cache K A D) :=
  match c.bufs.find? fun b => b.key = k with
  | some b => some (b, { c with bufs := c.bufs.eraseP fun b => b.key = k })
  | none => miss.map fun m => (⟨k, m.1, m.2, false⟩, c)

/-- A buffer is given back. -/
def give (b : Buf K A D) : Cache K A D := { c with bufs := b :: c.bufs }

/-- The contents of a buffer reach the disk. -/
def writeOut (b : Buf K A D) : A → D :=
  match b.addr with
  | some a => Function.update c.disk a b.data
  | none => c.disk

/-- A changed buffer is given back, its write delayed. -/
def giveDelayed (b : Buf K A D) : Cache K A D := c.give { b with dirty := true }

/-- A changed buffer is written and given back. -/
def giveWritten (b : Buf K A D) : Cache K A D :=
  { c with disk := c.writeOut b }.give { b with dirty := false }

/-- The cache writes a dirty buffer. -/
def flush (i : ℕ) : Cache K A D :=
  match c.bufs[i]? with
  | some b =>
      if b.dirty then
        { bufs := c.bufs.set i { b with dirty := false }, disk := c.writeOut b }
      else c
  | none => c

/-- The cache drops a buffer that is not dirty. -/
def evict (i : ℕ) : Cache K A D :=
  match c.bufs[i]? with
  | some b => if b.dirty then c else { c with bufs := c.bufs.eraseIdx i }
  | none => c

end

/-- What a read of an address would see: every buffer of it has the contents, and without a dirty one
so has the disk. -/
structure Shows (c : Cache K A D) (a : A) (d : D) : Prop where
  buf : ∀ b ∈ c.bufs, b.addr = some a → b.data = d
  disk : (∀ b ∈ c.bufs, b.addr = some a → b.dirty = false) → c.disk a = d

/-- No two buffers have one address. -/
def Distinct (c : Cache K A D) : Prop :=
  c.bufs.Pairwise fun b b' => b.addr = none ∨ b.addr ≠ b'.addr

/-- Under the key there is the buffer of the address, if there is one, and no other. -/
def Sole (c : Cache K A D) (k : K) (a : A) : Prop :=
  ∀ b ∈ c.bufs, b.key = k ↔ b.addr = some a

/-- Every logical block that has an address shows what was stored to it last. -/
structure Coherent (c : Cache K A D) (At : L → A → Prop) (last : L → D) : Prop where
  distinct : c.Distinct
  shows : ∀ l a, At l a → c.Shows a (last l)

/-- The buffer of an address is out of the cache. -/
structure Taken (c c' : Cache K A D) (a : A) : Prop where
  disk : c'.disk = c.disk
  sub : c'.bufs.Sublist c.bufs
  gone : ∀ x ∈ c'.bufs, x.addr ≠ some a
  stay : ∀ x ∈ c.bufs, x.addr ≠ some a → x.addr ≠ none → x ∈ c'.bufs

variable {c c' : Cache K A D} {k : K} {a : A} {d : D} {b : Buf K A D}

theorem Taken.shows_of_ne (h : Taken c c' a) {a' : A} (hne : a' ≠ a) {d' : D}
    (hs : c.Shows a' d') : c'.Shows a' d' where
  buf x hx := hs.buf x (h.sub.subset hx)
  disk hclean := by
    rw [h.disk]
    refine hs.disk fun x hx hxa => ?_
    have hne' : x.addr ≠ some a := by
      rw [hxa]
      simpa using hne
    exact hclean x (h.stay x hx hne' (by simp [hxa])) hxa

theorem Taken.distinct (h : Taken c c' a) (hd : c.Distinct) : c'.Distinct := hd.sublist h.sub

section

variable [DecidableEq K]

/-- The two ways a buffer is taken. -/
theorem get_cases {miss : Option (Option A × D)} (h : c.get k miss = some (b, c')) :
    (∃ l r, c.bufs = l ++ b :: r ∧ c'.bufs = l ++ r ∧ c'.disk = c.disk ∧ b.key = k ∧
      ∀ x ∈ l, x.key ≠ k) ∨
    ((∀ x ∈ c.bufs, x.key ≠ k) ∧ c' = c ∧ ∃ m, miss = some m ∧ b = ⟨k, m.1, m.2, false⟩) := by
  unfold get at h
  cases hfind : c.bufs.find? fun b => b.key = k with
  | some b₀ =>
    rw [hfind] at h
    simp only [Option.some.injEq, Prod.mk.injEq] at h
    obtain ⟨rfl, rfl⟩ := h
    obtain ⟨hkey, l, r, hsplit, hl⟩ := List.find?_eq_some_iff_append.1 hfind
    refine .inl ⟨l, r, hsplit, ?_, rfl, by simpa using hkey, fun x hx => by simpa using hl x hx⟩
    simp only [hsplit]
    rw [List.eraseP_append_right _ (by simpa using hl)]
    exact congrArg (l ++ ·) (List.eraseP_cons_of_pos hkey)
  | none =>
    rw [hfind] at h
    refine .inr ⟨fun x hx => by simpa using List.find?_eq_none.1 hfind x hx, ?_⟩
    cases miss with
    | none => simp at h
    | some m =>
      simp only [Option.map_some, Option.some.injEq, Prod.mk.injEq] at h
      exact ⟨h.2.symm, m, rfl, h.1.symm⟩

/-- A new buffer can always be had. -/
theorem exists_get (c : Cache K A D) (k : K) (m : Option A × D) :
    ∃ b c', c.get k (some m) = some (b, c') := by
  unfold get
  split
  · exact ⟨_, _, rfl⟩
  · exact ⟨_, _, rfl⟩

theorem get_key {miss : Option (Option A × D)} (h : c.get k miss = some (b, c')) : b.key = k := by
  rcases get_cases h with ⟨l, r, _, _, _, hkey, _⟩ | ⟨_, _, m, _, rfl⟩
  · exact hkey
  · rfl

theorem get_disk {miss : Option (Option A × D)} (h : c.get k miss = some (b, c')) :
    c'.disk = c.disk := by
  rcases get_cases h with ⟨l, r, _, _, hdisk, _, _⟩ | ⟨_, rfl, _⟩
  · exact hdisk
  · rfl

theorem get_sublist {miss : Option (Option A × D)} (h : c.get k miss = some (b, c')) :
    c'.bufs.Sublist c.bufs := by
  rcases get_cases h with ⟨l, r, hc, hc', _⟩ | ⟨_, rfl, _⟩
  · rw [hc, hc']
    exact List.Sublist.append_left (List.sublist_cons_self b r) l
  · exact List.Sublist.refl _

/-- Where keys are not shared, the key is free once its buffer is taken. -/
theorem get_nodup {miss : Option (Option A × D)} (hn : (c.bufs.map Buf.key).Nodup)
    (h : c.get k miss = some (b, c')) :
    (k :: c'.bufs.map Buf.key).Nodup := by
  refine List.nodup_cons.2 ⟨fun hk => ?_, hn.sublist ((get_sublist h).map _)⟩
  obtain ⟨x, hx, rfl⟩ := List.mem_map.1 hk
  rcases get_cases h with ⟨l, r, hc, hc', _, hkey, hl⟩ | ⟨hno, rfl, _⟩
  · rw [hc'] at hx
    rw [hc, List.map_append, List.map_cons] at hn
    have hr := (List.nodup_cons.1 (List.nodup_append.1 hn).2.1).1
    rcases List.mem_append.1 hx with hxl | hxr
    · exact hl x hxl rfl
    · exact hr (List.mem_map.2 ⟨x, hxr, hkey.symm⟩)
  · exact hno x hx rfl

/-- **A sole buffer** is taken: no buffer of its address is left. -/
theorem get_sole {miss : Option (Option A × D)} (hd : c.Distinct) (hsole : c.Sole k a)
    (hmiss : ∀ m, miss = some m → m.1 = some a) (h : c.get k miss = some (b, c')) :
    Taken c c' a ∧ b.addr = some a := by
  rcases get_cases h with ⟨l, r, hc, hc', hdisk, hkey, hl⟩ | ⟨hno, rfl, m, hm, rfl⟩
  · have hb : b ∈ c.bufs := by simp [hc]
    have haddr : b.addr = some a := (hsole b hb).1 hkey
    refine ⟨⟨hdisk, get_sublist h, ?_, ?_⟩, haddr⟩
    · intro x hx hxa
      have hpair := hd
      rw [Distinct, hc] at hpair
      rw [hc'] at hx
      rcases List.mem_append.1 hx with hxl | hxr
      · exact hl x hxl ((hsole x (by simp [hc, hxl])).2 hxa)
      · have hpair' := (List.pairwise_append.1 hpair).2.1
        rcases List.rel_of_pairwise_cons hpair' hxr with h0 | h0
        · simp [haddr] at h0
        · exact h0 (haddr.trans hxa.symm)
    · intro x hx hxa _
      rw [hc] at hx
      rw [hc']
      simp only [List.mem_append, List.mem_cons] at hx ⊢
      rcases hx with hx | rfl | hx
      · exact .inl hx
      · exact absurd haddr hxa
      · exact .inr hx
  · exact ⟨⟨rfl, List.Sublist.refl _, fun x hx hxa => hno x hx ((hsole x hx).2 hxa),
      fun x hx _ _ => hx⟩, hmiss m hm⟩

/-- The contents of a sole buffer are what the cache shows at its address, and so is the disk unless
the buffer is dirty. -/
theorem get_shown {miss : Option (Option A × D)} (hd : c.Distinct) (hsole : c.Sole k a)
    (hs : c.Shows a d) (hmiss : ∀ m, miss = some m → m = (some a, c.disk a))
    (h : c.get k miss = some (b, c')) : b.data = d ∧ (b.dirty = false → c.disk a = d) := by
  obtain ⟨htaken, haddr⟩ := get_sole hd hsole (fun m hm => by rw [hmiss m hm]) h
  rcases get_cases h with ⟨l, r, hc, hc', -, -, -⟩ | ⟨hno, rfl, m, hm, rfl⟩
  · have hb : b ∈ c.bufs := by simp [hc]
    refine ⟨hs.buf b hb haddr, fun hclean => hs.disk fun x hx hxa => ?_⟩
    by_cases hxb : x = b
    · rw [hxb]
      exact hclean
    · refine absurd hxa (htaken.gone x ?_)
      rw [hc] at hx
      rw [hc']
      simp only [List.mem_append, List.mem_cons] at hx ⊢
      rcases hx with hx | hx | hx
      · exact .inl hx
      · exact absurd hx hxb
      · exact .inr hx
  · have hdisk : c'.disk a = d := hs.disk fun x hx hxa => absurd ((hsole x hx).2 hxa) (hno x hx)
    rw [hmiss m hm]
    exact ⟨hdisk, fun _ => hdisk⟩

/-- A buffer for an address that no buffer has yet; under its key there was at most a buffer of a
hole. -/
theorem get_fresh {miss : Option (Option A × D)} (hno : ∀ x ∈ c.bufs, x.addr ≠ some a)
    (hhole : ∀ x ∈ c.bufs, x.key = k → x.addr = none) (h : c.get k miss = some (b, c')) :
    Taken c c' a := by
  refine ⟨get_disk h, get_sublist h, fun x hx => hno x ((get_sublist h).subset hx), ?_⟩
  intro x hx _ hxn
  rcases get_cases h with ⟨l, r, hc, hc', -, hkey, -⟩ | ⟨_, rfl, _⟩
  · rw [hc] at hx
    rw [hc']
    simp only [List.mem_append, List.mem_cons] at hx ⊢
    rcases hx with hx | rfl | hx
    · exact .inl hx
    · exact absurd (hhole x (by simp [hc]) hkey) hxn
    · exact .inr hx
  · exact hx

/-- A buffer of a hole is taken and given back. -/
theorem Coherent.reget_hole {miss : Option (Option A × D)} {At : L → A → Prop} {last : L → D}
    (h : c.Coherent At last) (hget : c.get k miss = some (b, c')) (hb : b.addr = none) :
    (c'.give b).Coherent At last := by
  have hmem : ∀ x a, x.addr = some a → (x ∈ (c'.give b).bufs ↔ x ∈ c.bufs) := by
    intro x a hxa
    have hxb : x ≠ b := by
      rintro rfl
      rw [hb] at hxa
      exact absurd hxa (by simp)
    rcases get_cases hget with ⟨l, r, hc, hc', -⟩ | ⟨_, rfl, _⟩
    · simp [give, hc, hc', hxb]
    · simp [give, hxb]
  refine ⟨List.pairwise_cons.2 ⟨fun x _ => .inl hb, h.distinct.sublist (get_sublist hget)⟩,
    fun l a hat => ?_⟩
  have hs := h.shows l a hat
  refine ⟨fun x hx hxa => hs.buf x ((hmem x a hxa).1 hx) hxa, fun hall => ?_⟩
  refine (congrFun (get_disk hget) a).trans (hs.disk fun x hx hxa => ?_)
  exact hall x ((hmem x a hxa).2 hx) hxa

end

/-- A buffer that is given back: its address shows its contents, and the other addresses what they
showed before. -/
theorem Taken.give_shows (h : Taken c c' a) (haddr : b.addr = some a)
    (hclean : b.dirty = false → c.disk a = b.data) : (c'.give b).Shows a b.data where
  buf x hx hxa := by
    simp only [give, List.mem_cons] at hx
    rcases hx with rfl | hx
    · rfl
    · exact absurd hxa (h.gone x hx)
  disk hall := by
    have hb : b.dirty = false := hall b (by simp [give]) haddr
    exact (congrFun h.disk a).trans (hclean hb)

theorem Taken.give_shows_of_ne (h : Taken c c' a) (haddr : b.addr = some a) {a' : A} (hne : a' ≠ a)
    {d' : D} (hs : c.Shows a' d') : (c'.give b).Shows a' d' where
  buf x hx hxa := by
    simp only [give, List.mem_cons] at hx
    rcases hx with rfl | hx
    · rw [haddr] at hxa
      exact absurd (Option.some.inj hxa).symm hne
    · exact (h.shows_of_ne hne hs).buf x hx hxa
  disk hall := (h.shows_of_ne hne hs).disk fun x hx => hall x (List.mem_cons_of_mem _ hx)

theorem Taken.give_distinct (h : Taken c c' a) (hd : c.Distinct) (haddr : b.addr = some a) :
    (c'.give b).Distinct := by
  refine List.pairwise_cons.2 ⟨fun x hx => ?_, h.distinct hd⟩
  rw [haddr]
  exact .inr fun hx' => h.gone x hx hx'.symm

variable {At : L → A → Prop} {last : L → D}

/-- **Giving a buffer back.**  The cache is coherent with what its address shows then and what the
other addresses showed before. -/
theorem Taken.coherent (h : Taken c c' a) (hd : c.Distinct) (haddr : b.addr = some a)
    (hclean : b.dirty = false → c.disk a = b.data)
    (hlast : ∀ l a', At l a' → a' = a ∧ last l = b.data ∨ a' ≠ a ∧ c.Shows a' (last l)) :
    (c'.give b).Coherent At last where
  distinct := h.give_distinct hd haddr
  shows l a' hat := by
    rcases hlast l a' hat with ⟨rfl, hl⟩ | ⟨hne, hs⟩
    · rw [hl]
      exact h.give_shows haddr hclean
    · exact h.give_shows_of_ne haddr hne hs

/-- A buffer that is given back dirty. -/
theorem Taken.coherent_delayed (h : Taken c c' a) (hd : c.Distinct) (haddr : b.addr = some a)
    (hlast : ∀ l a', At l a' → a' = a ∧ last l = b.data ∨ a' ≠ a ∧ c.Shows a' (last l)) :
    (c'.giveDelayed b).Coherent At last :=
  h.coherent (b := { b with dirty := true }) hd haddr (fun hdirty => absurd hdirty (by simp)) hlast

/-! ### What the cache does on its own -/

/-- A buffer besides the one at an index is still there when that one is replaced. -/
theorem mem_set_of_ne {bufs : List (Buf K A D)} {i : ℕ} {b₀ y x : Buf K A D}
    (hb₀ : bufs[i]? = some b₀) (hx : x ∈ bufs) (hne : x ≠ b₀) : x ∈ bufs.set i y := by
  obtain ⟨j, hj⟩ := List.mem_iff_getElem?.1 hx
  have hij : i ≠ j := by
    rintro rfl
    exact hne (Option.some.inj (hj.symm.trans hb₀))
  exact List.mem_iff_getElem?.2 ⟨j, by rw [List.getElem?_set_ne hij, hj]⟩

theorem evict_sublist (c : Cache K A D) (i : ℕ) : (c.evict i).bufs.Sublist c.bufs := by
  unfold Cache.evict
  split
  · split
    · exact List.Sublist.refl _
    · exact List.eraseIdx_sublist _ _
  · exact List.Sublist.refl _

/-- The cache may drop a buffer that is not dirty. -/
theorem Coherent.evict (h : c.Coherent At last) (i : ℕ) : (c.evict i).Coherent At last := by
  unfold Cache.evict
  split
  · next b₀ hb₀ =>
    split
    · exact h
    · next hclean =>
      refine ⟨h.distinct.sublist (List.eraseIdx_sublist _ _), fun l a hat => ?_⟩
      have hs := h.shows l a hat
      refine ⟨fun x hx => hs.buf x (List.mem_of_mem_eraseIdx hx), fun hall => hs.disk ?_⟩
      intro x hx hxa
      obtain ⟨j, hj⟩ := List.mem_iff_getElem?.1 hx
      by_cases hij : j = i
      · subst hij
        obtain rfl : x = b₀ := Option.some.inj (hj.symm.trans hb₀)
        simpa using hclean
      · exact hall x (List.mem_eraseIdx_iff_getElem?.2 ⟨j, hij, hj⟩) hxa
  · exact h

section

variable [DecidableEq A]

theorem Shows.write_of_ne {a' : A} (hs : c.Shows a' d) (hne : a' ≠ a) (x : D) :
    ({ c with disk := Function.update c.disk a x } : Cache K A D).Shows a' d where
  buf := hs.buf
  disk hall := by
    simp only [Function.update_of_ne hne]
    exact hs.disk hall

/-- A buffer that is written and given back. -/
theorem Taken.coherent_written (h : Taken c c' a) (hd : c.Distinct) (haddr : b.addr = some a)
    (hlast : ∀ l a', At l a' → a' = a ∧ last l = b.data ∨ a' ≠ a ∧ c.Shows a' (last l)) :
    (c'.giveWritten b).Coherent At last := by
  have hdisk : c'.writeOut b = Function.update c.disk a b.data := by
    unfold writeOut
    rw [haddr, h.disk]
  unfold giveWritten
  rw [hdisk]
  have h₂ : Taken ({ c with disk := Function.update c.disk a b.data } : Cache K A D)
      { c' with disk := Function.update c.disk a b.data } a := ⟨rfl, h.sub, h.gone, h.stay⟩
  refine h₂.coherent (b := { b with dirty := false }) hd haddr
    (fun _ => Function.update_self a b.data c.disk) fun l a' hat => ?_
  rcases hlast l a' hat with hl | ⟨hne, hs⟩
  · exact .inl hl
  · exact .inr ⟨hne, hs.write_of_ne hne b.data⟩

/-- What the disk has at an address after a buffer was written. -/
theorem writeOut_apply (c : Cache K A D) (b₀ : Buf K A D) (a : A) :
    c.writeOut b₀ a = if b₀.addr = some a then b₀.data else c.disk a := by
  unfold writeOut
  cases h : b₀.addr with
  | none => simp
  | some a₀ =>
    by_cases ha : a = a₀
    · subst ha
      simp
    · simp [Function.update_of_ne ha, Ne.symm ha]

/-- A write leaves the keys, the addresses and the contents of the buffers. -/
theorem flush_mem {i : ℕ} {x : Buf K A D} (hx : x ∈ (c.flush i).bufs) :
    ∃ y ∈ c.bufs, x.key = y.key ∧ x.addr = y.addr ∧ x.data = y.data := by
  unfold Cache.flush at hx
  split at hx
  · next b₀ hb₀ =>
    split at hx
    · rcases List.mem_or_eq_of_mem_set hx with hx | rfl
      · exact ⟨x, hx, rfl, rfl, rfl⟩
      · exact ⟨b₀, List.mem_of_getElem? hb₀, rfl, rfl, rfl⟩
    · exact ⟨x, hx, rfl, rfl, rfl⟩
  · exact ⟨x, hx, rfl, rfl, rfl⟩

theorem flush_keys (c : Cache K A D) (i : ℕ) :
    (c.flush i).bufs.map Buf.key = c.bufs.map Buf.key := by
  unfold Cache.flush
  split
  · next b₀ hb₀ =>
    split
    · obtain ⟨hi, rfl⟩ := List.getElem?_eq_some_iff.1 hb₀
      have hlt : i < (c.bufs.map Buf.key).length := by simpa using hi
      have hmap := List.set_getElem_self hlt
      simpa using hmap
    · rfl
  · rfl

/-- The cache may write a dirty buffer at any time. -/
theorem Coherent.flush (h : c.Coherent At last) (i : ℕ) : (c.flush i).Coherent At last := by
  unfold Cache.flush
  split
  · next b₀ hb₀ =>
    split
    · have hmem : b₀ ∈ c.bufs := List.mem_of_getElem? hb₀
      have haddrs : (c.bufs.set i { b₀ with dirty := false }).map Buf.addr = c.bufs.map Buf.addr := by
        refine List.ext_getElem? fun j => ?_
        rw [List.getElem?_map, List.getElem?_map, List.getElem?_set]
        split
        · next hij =>
          subst hij
          rw [hb₀]
          split <;> simp_all
        · rfl
      refine ⟨?_, fun l a hat => ?_⟩
      · have hd : (c.bufs.map Buf.addr).Pairwise fun x y => x = none ∨ x ≠ y :=
          List.pairwise_map.2 h.distinct
        rw [← haddrs] at hd
        exact List.pairwise_map.1 hd
      · have hs := h.shows l a hat
        refine ⟨fun x hx hxa => ?_, fun hall => ?_⟩
        · rcases List.mem_or_eq_of_mem_set hx with hx | rfl
          · exact hs.buf x hx hxa
          · exact hs.buf b₀ hmem hxa
        · simp only [writeOut_apply]
          split
          · next ha => exact hs.buf b₀ hmem ha
          · next ha =>
            refine hs.disk fun x hx hxa => hall x (mem_set_of_ne hb₀ hx ?_) hxa
            rintro rfl
            exact ha hxa
    · exact h
  · exact h

end

end Cache

end BufCache
