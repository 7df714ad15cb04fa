import Mathlib.Data.List.Basic
import Mathlib.Logic.Function.Basic

/-!
# A few buffers over a device, written back when they move on

A buffer stands on an address.  It is compared with new contents and changed when they differ, and it
is written when it is moved to another address.  Two buffers may stand on one address, and one buffer
may be used under two names.

* `Buffers` — the device and the buffers, which `get`, `put` and `flush` work on;
* `Spared` — an address that nothing is put at keeps its contents;
* `Agreed` — at an address where only one value is put, the device and the buffers have this value
  or the old one, and once it is put the device will have it;
* **`Agreed.flushAll`** — at the end it is there.
-/

namespace WriteBack

variable {A D : Type}

/-- A buffer, on its address. -/
structure Buf (A D : Type) where
  addr : A
  data : D
  dirty : Bool

/-- The device, and the buffers by their numbers. -/
structure Buffers (A D : Type) where
  disk : A → D
  buf : ℕ → Buf A D

namespace Buffers

variable [DecidableEq A] [DecidableEq D] (ok : A → Bool) (junk : D)

/-- A dirty buffer is written, if the device takes it. -/
def flush (n : ℕ) (s : Buffers A D) : Buffers A D :=
  if (s.buf n).dirty then
    { disk := if ok (s.buf n).addr then Function.update s.disk (s.buf n).addr (s.buf n).data else s.disk
      buf := Function.update s.buf n { s.buf n with dirty := false } }
  else s

/-- A buffer is moved to an address, and read there; `junk` is what a failing read leaves. -/
def get (n : ℕ) (a : A) (s : Buffers A D) : Buffers A D :=
  if (s.buf n).addr = a then s
  else
    let s := flush ok n s
    { s with buf := Function.update s.buf n ⟨a, if ok a then s.disk a else junk, false⟩ }

/-- The contents of a buffer are compared with new ones, and replaced if they differ. -/
def put (n : ℕ) (x : D) (s : Buffers A D) : Buffers A D :=
  if (s.buf n).data = x then s
  else { s with buf := Function.update s.buf n { s.buf n with data := x, dirty := true } }

/-- The buffers with the numbers of a list are written. -/
def flushAll (ns : List ℕ) (s : Buffers A D) : Buffers A D := ns.foldl (fun s n => flush ok n s) s

end Buffers

open Buffers

/-- A buffer comes to have a value; it is dirty unless it had it before. -/
structure Stores (n : ℕ) (x : D) (s s' : Buffers A D) : Prop where
  disk : s'.disk = s.disk
  others : ∀ m, m ≠ n → s'.buf m = s.buf m
  addr : (s'.buf n).addr = (s.buf n).addr
  data : (s'.buf n).data = x
  dirty : (s'.buf n).dirty = true ∨ s'.buf n = s.buf n

section

variable {n : ℕ} {x y : D} {s s' s'' : Buffers A D}

theorem put_stores [DecidableEq D] (n : ℕ) (x : D) (s : Buffers A D) : Stores n x s (put n x s) := by
  unfold put
  split
  case isTrue h => exact ⟨rfl, fun _ _ => rfl, rfl, h, .inr rfl⟩
  case isFalse h =>
    exact ⟨rfl, fun m hm => Function.update_of_ne hm _ _, by simp, by simp, .inl (by simp)⟩

/-- Of two values put into one buffer the second one counts. -/
theorem Stores.trans (h : Stores n y s s') (h' : Stores n x s' s'') : Stores n x s s'' where
  disk := h'.disk.trans h.disk
  others m hm := (h'.others m hm).trans (h.others m hm)
  addr := h'.addr.trans h.addr
  data := h'.data
  dirty := by
    rcases h'.dirty with hd | hsame
    · exact .inl hd
    rcases h.dirty with hd | hsame'
    · exact .inl (by rw [hsame]; exact hd)
    · exact .inr (hsame.trans hsame')

end

/-! ### An address where nothing is put -/

section

variable {ok : A → Bool} {junk : D} {a b : A} {d x : D} {n : ℕ} {s s' : Buffers A D}

/-- The device has the old contents, and no buffer would write there. -/
structure Spared (a : A) (d : D) (s : Buffers A D) : Prop where
  disk : s.disk a = d
  clean : ∀ n, (s.buf n).addr = a → (s.buf n).dirty = false

namespace Spared

theorem stores (h : Spared a d s) (hput : Stores n x s s') (hne : (s.buf n).addr ≠ a) :
    Spared a d s' := by
  refine ⟨by rw [hput.disk]; exact h.disk, fun m hm => ?_⟩
  by_cases hmn : m = n
  · subst hmn
    exact absurd (hput.addr ▸ hm) hne
  · rw [hput.others m hmn] at hm ⊢
    exact h.clean m hm

variable [DecidableEq A]

theorem flush (h : Spared a d s) (n : ℕ) : Spared a d (flush ok n s) := by
  unfold Buffers.flush
  split
  case isFalse => exact h
  case isTrue hd =>
    have hne : (s.buf n).addr ≠ a := fun heq => by
      rw [h.clean n heq] at hd
      exact Bool.false_ne_true hd
    constructor
    · show (if ok (s.buf n).addr then _ else s.disk) a = d
      split
      · rw [Function.update_of_ne hne.symm]
        exact h.disk
      · exact h.disk
    · intro m hm
      by_cases hmn : m = n
      · subst hmn
        simp
      · simp only [Function.update_of_ne hmn] at hm ⊢
        exact h.clean m hm

theorem get (h : Spared a d s) (n : ℕ) (b : A) : Spared a d (get ok junk n b s) := by
  unfold Buffers.get
  split
  · exact h
  refine ⟨(h.flush n).disk, fun m hm => ?_⟩
  by_cases hmn : m = n
  · subst hmn
    simp
  · simp only [Function.update_of_ne hmn] at hm ⊢
    exact (h.flush n).clean m hm

theorem flushAll (h : Spared a d s) (ns : List ℕ) : (flushAll ok ns s).disk a = d := by
  induction ns generalizing s with
  | nil => exact h.disk
  | cons n ns ih => exact ih (h.flush n)

end Spared

section

variable [DecidableEq A]

/-- Where the device takes nothing, it keeps its contents. -/
theorem flush_refused (ha : ok a = false) (n : ℕ) (s : Buffers A D) :
    (flush ok n s).disk a = s.disk a := by
  unfold flush
  split
  swap
  · rfl
  dsimp only
  split
  case isTrue hok =>
    exact Function.update_of_ne (fun heq => by rw [← heq, ha] at hok; exact Bool.false_ne_true hok) _ _
  case isFalse => rfl

theorem get_refused (ha : ok a = false) (n : ℕ) (b : A) (s : Buffers A D) :
    (get ok junk n b s).disk a = s.disk a := by
  unfold Buffers.get
  split
  · rfl
  · exact flush_refused ha n s

theorem flushAll_refused (ha : ok a = false) (ns : List ℕ) (s : Buffers A D) :
    (flushAll ok ns s).disk a = s.disk a := by
  induction ns generalizing s with
  | nil => rfl
  | cons n ns ih => exact (ih (flush ok n s)).trans (flush_refused ha n s)

end

/-! ### An address where one value is put -/

/-- `d` is the old value at an address and `x` the one that is put there; `hit` says that this has
happened, and `ns` are the buffers in use. -/
structure Agreed (ns : List ℕ) (a : A) (d x : D) (hit : Prop) (s : Buffers A D) : Prop where
  disk : s.disk a = d ∨ s.disk a = x
  dirty : ∀ n, (s.buf n).addr = a → (s.buf n).dirty = true → (s.buf n).data = x
  clean : ∀ n, (s.buf n).addr = a → (s.buf n).dirty = false →
    (s.buf n).data = d ∨ (s.buf n).data = x ∧ s.disk a = x
  hit : hit → s.disk a = x ∨ ∃ n ∈ ns, (s.buf n).addr = a ∧ (s.buf n).dirty = true

namespace Agreed

variable {ns : List ℕ} {hit : Prop}

/-- Nothing was put yet, and the buffers stand elsewhere. -/
theorem start (hne : ∀ n, (s.buf n).addr ≠ a) : Agreed ns a (s.disk a) x False s where
  disk := .inl rfl
  dirty n h := absurd h (hne n)
  clean n h := absurd h (hne n)
  hit h := h.elim

/-- A value is put: at the address it must be the one. -/
theorem stores {y : D} (h : Agreed ns a d x hit s) (hn : n ∈ ns) (hput : Stores n y s s')
    (hy : (s.buf n).addr = a → y = x) :
    Agreed ns a d x (hit ∨ (s.buf n).addr = a) s' := by
  have hdisk : s'.disk a = s.disk a := by rw [hput.disk]
  refine ⟨hdisk ▸ h.disk, fun m hm hdirty => ?_, fun m hm hclean => ?_, fun hh => ?_⟩
  · by_cases hmn : m = n
    · subst hmn
      exact hput.data.trans (hy (hput.addr ▸ hm))
    · rw [hput.others m hmn] at hm hdirty ⊢
      exact h.dirty m hm hdirty
  · rw [hdisk]
    by_cases hmn : m = n
    · subst hmn
      rcases hput.dirty with hd | hsame
      · exact absurd (hclean.symm.trans hd) Bool.false_ne_true
      · rw [hsame] at hm hclean ⊢
        exact h.clean m hm hclean
    · rw [hput.others m hmn] at hm hclean ⊢
      exact h.clean m hm hclean
  · rw [hdisk]
    by_cases heq : (s.buf n).addr = a
    · rcases hput.dirty with hd | hsame
      · exact .inr ⟨n, hn, hput.addr.trans heq, hd⟩
      · -- nothing was changed: the buffer had the value, and it is dirty or was read
        have hdata : (s.buf n).data = x := by
          rw [← hsame]
          exact hput.data.trans (hy heq)
        by_cases hdirty : (s.buf n).dirty = true
        · exact .inr ⟨n, hn, hput.addr.trans heq, by rw [hsame]; exact hdirty⟩
        · rcases h.clean n heq (by simpa using hdirty) with hd | ⟨-, hx⟩
          · have hdx : d = x := hd.symm.trans hdata
            exact .inl (h.disk.elim (fun hc => hc.trans hdx) id)
          · exact .inl hx
    · refine (h.hit (hh.resolve_right heq)).imp_right fun ⟨m, hm, haddr, hdirty⟩ => ⟨m, hm, ?_⟩
      have hmn : m ≠ n := fun he => heq (he ▸ haddr)
      rw [hput.others m hmn]
      exact ⟨haddr, hdirty⟩

theorem mono {hit' : Prop} (h : Agreed ns a d x hit s) (hh : hit' → hit) :
    Agreed ns a d x hit' s :=
  ⟨h.disk, h.dirty, h.clean, fun hc => h.hit (hh hc)⟩

variable [DecidableEq A]

theorem flush (hok : ok a = true) (h : Agreed ns a d x hit s) (n : ℕ) :
    Agreed ns a d x hit (flush ok n s) := by
  unfold Buffers.flush
  split
  case isFalse => exact h
  case isTrue hd =>
    by_cases heq : (s.buf n).addr = a
    · have hdata := h.dirty n heq hd
      have hdisk : (if ok (s.buf n).addr then
          Function.update s.disk (s.buf n).addr (s.buf n).data else s.disk) a = x := by
        rw [heq, if_pos hok, hdata, Function.update_self]
      refine ⟨.inr hdisk, fun m hm hdirty => ?_, fun m hm hclean => ?_, fun _ => .inl hdisk⟩
      · by_cases hmn : m = n
        · subst hmn
          simp at hdirty
        · simp only [Function.update_of_ne hmn] at hm hdirty ⊢
          exact h.dirty m hm hdirty
      · by_cases hmn : m = n
        · subst hmn
          simp only [Function.update_self]
          exact .inr ⟨hdata, hdisk⟩
        · simp only [Function.update_of_ne hmn] at hm hclean ⊢
          exact (h.clean m hm hclean).imp_right fun hx => ⟨hx.1, hdisk⟩
    · have hdisk : (if ok (s.buf n).addr then
          Function.update s.disk (s.buf n).addr (s.buf n).data else s.disk) a = s.disk a := by
        split
        · exact Function.update_of_ne (Ne.symm heq) _ _
        · rfl
      refine ⟨h.disk.imp hdisk.trans hdisk.trans, fun m hm hdirty => ?_, fun m hm hclean => ?_,
        fun hh => ?_⟩
      · by_cases hmn : m = n
        · subst hmn
          simp at hdirty
        · simp only [Function.update_of_ne hmn] at hm hdirty ⊢
          exact h.dirty m hm hdirty
      · by_cases hmn : m = n
        · subst hmn
          simp only [Function.update_self] at hm
          exact absurd hm heq
        · simp only [Function.update_of_ne hmn] at hm hclean ⊢
          exact (h.clean m hm hclean).imp_right fun hx => ⟨hx.1, hdisk.trans hx.2⟩
      · refine (h.hit hh).imp (fun hx => hdisk.trans hx) fun ⟨m, hm, haddr, hdirty⟩ => ⟨m, hm, ?_⟩
        have hmn : m ≠ n := fun he => heq (he ▸ haddr)
        simp only [Function.update_of_ne hmn]
        exact ⟨haddr, hdirty⟩

/-- After its write a buffer is clean. -/
theorem flush_clean (n : ℕ) (s : Buffers A D) : ((Buffers.flush ok n s).buf n).dirty = false := by
  unfold Buffers.flush
  split
  · simp
  case isFalse h => simpa using h

theorem get (hok : ok a = true) (h : Agreed ns a d x hit s) (n : ℕ) (b : A) :
    Agreed ns a d x hit (get ok junk n b s) := by
  unfold Buffers.get
  split
  · exact h
  have hf := h.flush hok n
  refine ⟨hf.disk, fun m hm hdirty => ?_, fun m hm hclean => ?_, fun hh => ?_⟩
  · by_cases hmn : m = n
    · subst hmn
      simp at hdirty
    · simp only [Function.update_of_ne hmn] at hm hdirty ⊢
      exact hf.dirty m hm hdirty
  · by_cases hmn : m = n
    · subst hmn
      simp only [Function.update_self] at hm ⊢
      subst hm
      rw [if_pos hok]
      exact hf.disk.imp_right fun hx => ⟨hx, hx⟩
    · simp only [Function.update_of_ne hmn] at hm hclean ⊢
      exact hf.clean m hm hclean
  · refine (hf.hit hh).imp_right fun ⟨m, hm, haddr, hdirty⟩ => ⟨m, hm, ?_⟩
    have hmn : m ≠ n := fun he => by
      rw [he, flush_clean] at hdirty
      exact Bool.false_ne_true hdirty
    simp only [Function.update_of_ne hmn]
    exact ⟨haddr, hdirty⟩

/-- A write of a buffer that stands on the address puts the value on the device. -/
theorem flush_disk (hok : ok a = true) (h : Agreed ns a d x hit s)
    (hdisk : s.disk a = x ∨ (s.buf n).addr = a ∧ (s.buf n).dirty = true) :
    (Buffers.flush ok n s).disk a = x := by
  unfold Buffers.flush
  split
  case isFalse hd => exact hdisk.resolve_right fun hc => hd hc.2
  case isTrue hd =>
    show (if ok (s.buf n).addr then _ else s.disk) a = x
    by_cases heq : (s.buf n).addr = a
    · rw [heq, if_pos hok, Function.update_self]
      exact h.dirty n heq hd
    · have hx : s.disk a = x := hdisk.resolve_right fun hc => heq hc.1
      split
      · rw [Function.update_of_ne (Ne.symm heq)]
        exact hx
      · exact hx

/-- **At the end** the device has the value that was put. -/
theorem flushAll (hok : ok a = true) (h : Agreed ns a d x hit s) (hh : hit) :
    (flushAll ok ns s).disk a = x := by
  have hrun : ∀ (ms : List ℕ) (t : Buffers A D), Agreed ns a d x hit t →
      (t.disk a = x ∨ ∃ n ∈ ms, (t.buf n).addr = a ∧ (t.buf n).dirty = true) →
      (Buffers.flushAll ok ms t).disk a = x := by
    intro ms
    induction ms with
    | nil =>
      intro t _ hx
      exact hx.resolve_right fun ⟨n, hn, _⟩ => absurd hn List.not_mem_nil
    | cons m ms ih =>
      intro t ht hx
      refine ih (Buffers.flush ok m t) (ht.flush hok m) ?_
      by_cases hm : t.disk a = x ∨ (t.buf m).addr = a ∧ (t.buf m).dirty = true
      · exact .inl (ht.flush_disk hok hm)
      · obtain ⟨hne, hother⟩ := not_or.1 hm
        obtain ⟨n, hn, haddr, hdirty⟩ := hx.resolve_left hne
        have hnm : n ≠ m := fun he => hother (he ▸ ⟨haddr, hdirty⟩)
        refine .inr ⟨n, (List.mem_cons.1 hn).resolve_left hnm, ?_⟩
        unfold Buffers.flush
        split
        · simp only [Function.update_of_ne hnm]
          exact ⟨haddr, hdirty⟩
        · exact ⟨haddr, hdirty⟩
  exact hrun ns s h (h.hit hh)

end Agreed

end

end WriteBack
