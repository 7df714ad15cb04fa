import Ext2fs.Basic
import Ext2fs.Lib.Runs

/-!
# Concurrent lookups of inodes

`ext2_vget_typed` looks an inode up in the hash, and where it is not there reads it, creates a vnode
for it and inserts it.  Nothing ties these steps together, so calls for one inode number interleave.
A state holds the hash, every call with the step it has reached, and the calls that have returned a
vnode, with the times they began and ended.

* `keeps_iff` — in a state that meets the invariant a step keeps the hash and the returned vnodes
  consistent exactly when it does not insert a number that another call inserted since this one looked
  it up;
* `vget_runs` — so they are consistent in every run of such steps.
-/

namespace Ext2fs

/-! ### The hash -/

/-- An inode in the hash: its mount and number, and its vnode. -/
structure HashedInode (K : Type) where
  /-- `i_ump` and `i_number` -/
  key : K
  /-- `i_vnode` -/
  vnode : ℕ
  deriving DecidableEq, Repr

section Hash

variable {K : Type} [DecidableEq K]

/-- `ext2_ihashget`: the vnode of the first inode of the chain that has the mount and number.  The
chains are kept as one list; those of other numbers hold no match. -/
def ext2Ihashget (hash : List (HashedInode K)) (key : K) : Option ℕ :=
  (hash.find? fun ip => ip.key = key).map HashedInode.vnode

/-- `ext2_ihashins`: `LIST_INSERT_HEAD`, with no look at what is there. -/
def ext2Ihashins (hash : List (HashedInode K)) (ip : HashedInode K) : List (HashedInode K) :=
  ip :: hash

/-- `ext2_ihashrem`: `LIST_REMOVE` of the inode of a vnode. -/
def ext2Ihashrem (hash : List (HashedInode K)) (vnode : ℕ) : List (HashedInode K) :=
  hash.eraseP fun ip => ip.vnode = vnode

theorem ihashget_none {hash : List (HashedInode K)} {key : K} (h : ext2Ihashget hash key = none) :
    ∀ ip ∈ hash, ip.key ≠ key := by
  unfold ext2Ihashget at h
  rw [Option.map_eq_none_iff, List.find?_eq_none] at h
  intro ip hip heq
  exact h ip hip (by simpa using heq)

theorem ihashget_some {hash : List (HashedInode K)} {key : K} {vp : ℕ}
    (h : ext2Ihashget hash key = some vp) : ∃ ip ∈ hash, ip.key = key ∧ ip.vnode = vp := by
  unfold ext2Ihashget at h
  obtain ⟨ip, hfind, hvp⟩ := Option.map_eq_some_iff.1 h
  exact ⟨ip, List.mem_of_find?_eq_some hfind, by simpa using List.find?_some hfind, hvp⟩

end Hash

/-! ### Calls and their steps -/

/-- How far a call of `ext2_vget_typed` has come, with the time it looked its inode up. -/
inductive Vget (K : Type) where
  | idle
  /-- the inode was not in the hash -/
  | missed (key : K) (start : ℕ)
  /-- the inode has been read -/
  | filled (key : K) (start : ℕ)
  /-- it has a vnode -/
  | created (key : K) (start : ℕ) (vp : ℕ)
  | returned
  deriving DecidableEq, Repr

/-- The number a call is about to insert, and the time it looked it up. -/
def Vget.window {K : Type} : Vget K → Option (K × ℕ)
  | .missed key start => some (key, start)
  | .filled key start => some (key, start)
  | .created key start _ => some (key, start)
  | _ => none

/-- A call that returned a vnode. -/
structure Return (K : Type) where
  key : K
  start : ℕ
  finish : ℕ
  vp : ℕ
  /-- whether the call inserted the inode, and did not find it -/
  inserted : Bool
  deriving DecidableEq, Repr

/-- The hash, the calls, and the vnodes. -/
structure VgetSys (K : Type) where
  now : ℕ
  hash : List (HashedInode K)
  calls : ℕ → Vget K
  /-- the vnode that `vnode_create` makes next -/
  nextVnode : ℕ
  /-- the calls that returned a vnode, the last one first -/
  returns : List (Return K)

/-- The steps of the calls, and of `ext2_reclaim`.  `ok` tells whether the read of the inode, or the
creation of the vnode, succeeds. -/
inductive VgetStep (K : Type) where
  | lookup (c : ℕ) (key : K)
  | read (c : ℕ) (ok : Bool)
  | create (c : ℕ) (ok : Bool)
  | insert (c : ℕ)
  | reclaim (vp : ℕ)

section Steps

variable {K : Type} [DecidableEq K]

/-- A call goes on to its next step. -/
def VgetSys.goOn (s : VgetSys K) (c : ℕ) (v : Vget K) : VgetSys K :=
  { s with calls := Function.update s.calls c v }

/-- One step of one call of `ext2_vget_typed`, or the removal of an inode by `ext2_reclaim`. -/
def vgetMove (a : VgetStep K) (s : VgetSys K) : VgetSys K :=
  match a with
  | .lookup c key =>
      match s.calls c, ext2Ihashget s.hash key with
      | .idle, some vp =>
          { s.goOn c .returned with returns := ⟨key, s.now, s.now, vp, false⟩ :: s.returns }
      | .idle, none => s.goOn c (.missed key s.now)
      | _, _ => s
  | .read c ok =>
      match s.calls c with
      | .missed key start => s.goOn c (if ok then .filled key start else .returned)
      | _ => s
  | .create c ok =>
      match s.calls c with
      | .filled key start =>
          if ok then
            { s.goOn c (.created key start s.nextVnode) with nextVnode := s.nextVnode + 1 }
          else s.goOn c .returned
      | _ => s
  | .insert c =>
      match s.calls c with
      | .created key start vp =>
          { s.goOn c .returned with
            hash := ext2Ihashins s.hash ⟨key, vp⟩
            returns := ⟨key, start, s.now, vp, true⟩ :: s.returns }
      | _ => s
  | .reclaim vp => { s with hash := ext2Ihashrem s.hash vp }

/-- A step takes one unit of time. -/
def vgetStep (a : VgetStep K) (s : VgetSys K) : VgetSys K :=
  { vgetMove a s with now := s.now + 1 }

/-- Nothing is hashed and no call has begun. -/
def VgetSys.initial : VgetSys K := ⟨0, [], fun _ => .idle, 0, []⟩

end Steps

/-! ### What is promised, and the condition -/

section Promise

variable {K : Type}

/-- The times of two calls overlap. -/
def Return.Overlaps (a b : Return K) : Prop := a.start ≤ b.finish ∧ b.start ≤ a.finish

/-- At most one inode of a number is hashed, and overlapping calls for one number return the same
vnode. -/
structure VgetKeeps (s : VgetSys K) : Prop where
  unique : (s.hash.map HashedInode.key).Nodup
  same : s.returns.Pairwise fun a b => a.key = b.key → a.Overlaps b → a.vp = b.vp

/-- An insertion is safe where no other call has inserted the same number since this one looked it
up. -/
def InsertSafe (a : VgetStep K) (s : VgetSys K) : Prop :=
  match a with
  | .insert c => ∀ key start vp, s.calls c = .created key start vp →
      ∀ r ∈ s.returns, r.inserted = true → r.key = key → r.finish < start
  | _ => True

/-- The invariant of runs of safe steps. -/
structure VgetInv (s : VgetSys K) : Prop extends VgetKeeps s where
  past : ∀ r ∈ s.returns, r.start ≤ r.finish ∧ r.finish < s.now
  begun : ∀ c key start, (s.calls c).window = some (key, start) → start < s.now
  /-- what is hashed under a number that a call is about to insert was inserted after its lookup -/
  hashed : ∀ c key start, (s.calls c).window = some (key, start) → ∀ ip ∈ s.hash, ip.key = key →
    ∃ r ∈ s.returns, r.inserted = true ∧ r.key = key ∧ start ≤ r.finish
  /-- and so was what a call found in the meantime -/
  found : ∀ c key start, (s.calls c).window = some (key, start) → ∀ r ∈ s.returns, r.key = key →
    start ≤ r.finish → ∃ r ∈ s.returns, r.inserted = true ∧ r.key = key ∧ start ≤ r.finish
  made : ∀ c key start vp, s.calls c = .created key start vp →
    vp < s.nextVnode ∧ ∀ r ∈ s.returns, r.vp ≠ vp
  apart : ∀ c c' key start key' start' vp, s.calls c = .created key start vp →
    s.calls c' = .created key' start' vp → c = c'
  known : ∀ ip ∈ s.hash, ∃ r ∈ s.returns, r.vp = ip.vnode
  old : ∀ r ∈ s.returns, r.vp < s.nextVnode

end Promise

/-! ### The steps keep the invariant -/

section Invariant

variable {K : Type} {s : VgetSys K}

/-- A call that inserts nothing: its window stays, closes, or opens at a number that is not
hashed. -/
theorem VgetInv.move (h : VgetInv s) (c : ℕ) (v : Vget K) (n : ℕ)
    (hwin : ∀ key start, v.window = some (key, start) → (s.calls c).window = some (key, start) ∨
      start = s.now ∧ ∀ ip ∈ s.hash, ip.key ≠ key)
    (hn : s.nextVnode ≤ n)
    (hnew : ∀ key start vp, v = .created key start vp → vp = s.nextVnode ∧ s.nextVnode < n) :
    VgetInv { s.goOn c v with nextVnode := n, now := s.now + 1 } := by
  have hcalls (c' : ℕ) : (Function.update s.calls c v) c' = if c' = c then v else s.calls c' :=
    Function.update_apply _ _ _ _
  constructor
  case toVgetKeeps => exact ⟨h.unique, h.same⟩
  case past =>
    intro r hr
    have hpast := h.past r hr
    show _ ∧ _ < s.now + 1
    omega
  case begun =>
    intro c' key start hw
    show start < s.now + 1
    simp only [VgetSys.goOn, hcalls] at hw
    split at hw
    · rcases hwin key start hw with hold | ⟨hnow, -⟩
      · have := h.begun c key start hold
        omega
      · omega
    · have := h.begun c' key start hw
      omega
  case hashed =>
    intro c' key start hw ip hip hkey
    simp only [VgetSys.goOn, hcalls] at hw
    split at hw
    · rcases hwin key start hw with hold | ⟨-, hnone⟩
      · exact h.hashed c key start hold ip hip hkey
      · exact absurd hkey (hnone ip hip)
    · exact h.hashed c' key start hw ip hip hkey
  case found =>
    intro c' key start hw r hr hkey hle
    simp only [VgetSys.goOn, hcalls] at hw
    split at hw
    · rcases hwin key start hw with hold | ⟨hnow, -⟩
      · exact h.found c key start hold r hr hkey hle
      · have := h.past r hr
        omega
    · exact h.found c' key start hw r hr hkey hle
  case made =>
    intro c' key start vp hc'
    simp only [VgetSys.goOn, hcalls] at hc'
    split at hc'
    · obtain ⟨hvp, hlt⟩ := hnew key start vp hc'
      subst hvp
      refine ⟨hlt, fun r hr => ?_⟩
      have := h.old r hr
      omega
    · obtain ⟨hlt, hne⟩ := h.made c' key start vp hc'
      exact ⟨lt_of_lt_of_le hlt hn, hne⟩
  case apart =>
    intro c₁ c₂ key start key' start' vp h₁ h₂
    simp only [VgetSys.goOn, hcalls] at h₁ h₂
    split at h₁ <;> split at h₂
    · next e₁ e₂ => exact e₁.trans e₂.symm
    · have hvp := (hnew key start vp h₁).1
      have := (h.made c₂ key' start' vp h₂).1
      omega
    · have hvp := (hnew key' start' vp h₂).1
      have := (h.made c₁ key start vp h₁).1
      omega
    · exact h.apart c₁ c₂ key start key' start' vp h₁ h₂
  case known => exact h.known
  case old => exact fun r hr => lt_of_lt_of_le (h.old r hr) hn

/-- A call that has returned has no window; the others keep theirs. -/
theorem window_of_returned {calls : ℕ → Vget K} {c c' : ℕ} {key : K} {start : ℕ}
    (h : (Function.update calls c .returned c').window = some (key, start)) :
    (calls c').window = some (key, start) := by
  rw [Function.update_apply] at h
  split at h
  · cases h
  · exact h

theorem created_of_returned {calls : ℕ → Vget K} {c c' : ℕ} {key : K} {start vp : ℕ}
    (h : Function.update calls c .returned c' = .created key start vp) :
    calls c' = .created key start vp ∧ c' ≠ c := by
  rw [Function.update_apply] at h
  split at h
  · cases h
  · exact ⟨h, by assumption⟩

/-- A call that finds its inode. -/
theorem VgetInv.hit (h : VgetInv s) {c : ℕ} {key : K} {ip : HashedInode K} (hip : ip ∈ s.hash)
    (hkey : ip.key = key) :
    VgetInv { s.goOn c .returned with
      returns := ⟨key, s.now, s.now, ip.vnode, false⟩ :: s.returns, now := s.now + 1 } := by
  obtain ⟨rk, hrk, hvp⟩ := h.known ip hip
  constructor
  case toVgetKeeps =>
    refine ⟨h.unique, List.pairwise_cons.2 ⟨?_, h.same⟩⟩
    intro r hr _ hover
    have hpast := h.past r hr
    obtain ⟨hle, -⟩ := hover
    dsimp only at hle
    omega
  case past =>
    intro r hr
    rcases List.mem_cons.1 hr with rfl | hr
    · exact ⟨le_rfl, Nat.lt_succ_self _⟩
    · have hpast := h.past r hr
      show _ ∧ _ < s.now + 1
      omega
  case begun =>
    intro c' k start hw
    exact lt_trans (h.begun c' k start (window_of_returned hw)) (Nat.lt_succ_self _)
  case hashed =>
    intro c' k start hw ip' hip' hkey'
    obtain ⟨r, hr, hins⟩ := h.hashed c' k start (window_of_returned hw) ip' hip' hkey'
    exact ⟨r, List.mem_cons_of_mem _ hr, hins⟩
  case found =>
    intro c' k start hw r hr hk hle
    rcases List.mem_cons.1 hr with rfl | hr
    · obtain ⟨r, hr, hins⟩ := h.hashed c' k start (window_of_returned hw) ip hip (hkey.trans hk)
      exact ⟨r, List.mem_cons_of_mem _ hr, hins⟩
    · obtain ⟨r, hr, hins⟩ := h.found c' k start (window_of_returned hw) r hr hk hle
      exact ⟨r, List.mem_cons_of_mem _ hr, hins⟩
  case made =>
    intro c' k start vp hc'
    obtain ⟨hlt, hne⟩ := h.made c' k start vp (created_of_returned hc').1
    refine ⟨hlt, fun r hr => ?_⟩
    rcases List.mem_cons.1 hr with rfl | hr
    · rw [← hvp]
      exact hne rk hrk
    · exact hne r hr
  case apart =>
    intro c₁ c₂ k start k' start' vp h₁ h₂
    exact h.apart c₁ c₂ k start k' start' vp (created_of_returned h₁).1 (created_of_returned h₂).1
  case known =>
    intro ip' hip'
    obtain ⟨r, hr, hvp'⟩ := h.known ip' hip'
    exact ⟨r, List.mem_cons_of_mem _ hr, hvp'⟩
  case old =>
    intro r hr
    rcases List.mem_cons.1 hr with rfl | hr
    · rw [← hvp]
      exact h.old rk hrk
    · exact h.old r hr

/-- A call that inserts its inode, when no other call has since its lookup. -/
theorem VgetInv.insert (h : VgetInv s) {c : ℕ} {key : K} {start vp : ℕ}
    (hc : s.calls c = .created key start vp)
    (hsafe : ∀ r ∈ s.returns, r.inserted = true → r.key = key → r.finish < start) :
    VgetInv { s.goOn c .returned with
      hash := ⟨key, vp⟩ :: s.hash
      returns := ⟨key, start, s.now, vp, true⟩ :: s.returns
      now := s.now + 1 } := by
  have hopen : (s.calls c).window = some (key, start) := by
    rw [hc]
    rfl
  obtain ⟨hlt, hne⟩ := h.made c key start vp hc
  -- nothing of this number is hashed, and no call for it returned since the lookup
  have hfree : ∀ ip ∈ s.hash, ip.key ≠ key := by
    intro ip hip hkey
    obtain ⟨r, hr, hins, hk, hle⟩ := h.hashed c key start hopen ip hip hkey
    have := hsafe r hr hins hk
    omega
  have hbefore : ∀ r ∈ s.returns, r.key = key → r.finish < start := by
    intro r hr hk
    by_contra hge
    obtain ⟨r', hr', hins, hk', hle⟩ := h.found c key start hopen r hr hk (by omega)
    have := hsafe r' hr' hins hk'
    omega
  constructor
  case toVgetKeeps =>
    refine ⟨List.nodup_cons.2 ⟨?_, h.unique⟩, List.pairwise_cons.2 ⟨?_, h.same⟩⟩
    · intro hmem
      obtain ⟨ip, hip, hkey⟩ := List.mem_map.1 hmem
      exact hfree ip hip hkey
    · intro r hr hk hover
      have := hbefore r hr hk.symm
      obtain ⟨hle, -⟩ := hover
      dsimp only at hle
      omega
  case past =>
    intro r hr
    rcases List.mem_cons.1 hr with rfl | hr
    · exact ⟨(h.begun c key start hopen).le, Nat.lt_succ_self _⟩
    · have hpast := h.past r hr
      show _ ∧ _ < s.now + 1
      omega
  case begun =>
    intro c' k start' hw
    exact lt_trans (h.begun c' k start' (window_of_returned hw)) (Nat.lt_succ_self _)
  case hashed =>
    intro c' k start' hw ip hip hk
    rcases List.mem_cons.1 hip with rfl | hip
    · exact ⟨_, List.mem_cons_self, rfl, hk, (h.begun c' k start' (window_of_returned hw)).le⟩
    · obtain ⟨r, hr, hins⟩ := h.hashed c' k start' (window_of_returned hw) ip hip hk
      exact ⟨r, List.mem_cons_of_mem _ hr, hins⟩
  case found =>
    intro c' k start' hw r hr hk hle
    rcases List.mem_cons.1 hr with rfl | hr
    · exact ⟨_, List.mem_cons_self, rfl, hk, hle⟩
    · obtain ⟨r, hr, hins⟩ := h.found c' k start' (window_of_returned hw) r hr hk hle
      exact ⟨r, List.mem_cons_of_mem _ hr, hins⟩
  case made =>
    intro c' k start' vp' hc'
    obtain ⟨hold, hcc⟩ := created_of_returned hc'
    obtain ⟨hlt', hne'⟩ := h.made c' k start' vp' hold
    refine ⟨hlt', fun r hr => ?_⟩
    rcases List.mem_cons.1 hr with rfl | hr
    · intro heq
      have heq : vp = vp' := heq
      subst heq
      exact hcc (h.apart c' c k start' key start vp hold hc)
    · exact hne' r hr
  case apart =>
    intro c₁ c₂ k start k' start' vp h₁ h₂
    exact h.apart c₁ c₂ k start k' start' vp (created_of_returned h₁).1 (created_of_returned h₂).1
  case known =>
    intro ip hip
    rcases List.mem_cons.1 hip with rfl | hip
    · exact ⟨_, List.mem_cons_self, rfl⟩
    · obtain ⟨r, hr, hvp⟩ := h.known ip hip
      exact ⟨r, List.mem_cons_of_mem _ hr, hvp⟩
  case old =>
    intro r hr
    rcases List.mem_cons.1 hr with rfl | hr
    · exact hlt
    · exact h.old r hr

/-- The removal of an inode. -/
theorem VgetInv.reclaim [DecidableEq K] (h : VgetInv s) (vp : ℕ) :
    VgetInv { s with hash := ext2Ihashrem s.hash vp, now := s.now + 1 } := by
  have hsub : (ext2Ihashrem s.hash vp).Sublist s.hash := List.eraseP_sublist
  constructor
  case toVgetKeeps => exact ⟨h.unique.sublist (hsub.map _), h.same⟩
  case past =>
    intro r hr
    have hpast := h.past r hr
    show _ ∧ _ < s.now + 1
    omega
  case begun => exact fun c key start hw => lt_trans (h.begun c key start hw) (Nat.lt_succ_self _)
  case hashed => exact fun c key start hw ip hip => h.hashed c key start hw ip (hsub.subset hip)
  case found => exact h.found
  case made => exact h.made
  case apart => exact h.apart
  case known => exact fun ip hip => h.known ip (hsub.subset hip)
  case old => exact h.old

/-- A step that does nothing only takes time. -/
theorem VgetInv.stay (h : VgetInv s) : VgetInv { s with now := s.now + 1 } := by
  constructor
  case toVgetKeeps => exact ⟨h.unique, h.same⟩
  case past =>
    intro r hr
    have hpast := h.past r hr
    show _ ∧ _ < s.now + 1
    omega
  case begun => exact fun c key start hw => lt_trans (h.begun c key start hw) (Nat.lt_succ_self _)
  case hashed => exact h.hashed
  case found => exact h.found
  case made => exact h.made
  case apart => exact h.apart
  case known => exact h.known
  case old => exact h.old

theorem vgetInv_initial : VgetInv (VgetSys.initial (K := K)) := by
  constructor
  case toVgetKeeps => exact ⟨List.nodup_nil, List.Pairwise.nil⟩
  case past => exact fun r hr => absurd hr List.not_mem_nil
  case begun => exact fun c key start hw => by cases hw
  case hashed => exact fun c key start hw => by cases hw
  case found => exact fun c key start hw => by cases hw
  case made => exact fun c key start vp hc => by cases hc
  case apart => exact fun c c' key start key' start' vp hc => by cases hc
  case known => exact fun ip hip => absurd hip List.not_mem_nil
  case old => exact fun r hr => absurd hr List.not_mem_nil

end Invariant

/-! ### Runs -/

section Runs

variable {K : Type} [DecidableEq K] {s : VgetSys K}

/-- Every safe step keeps the invariant. -/
theorem VgetInv.step (h : VgetInv s) {a : VgetStep K} (hsafe : InsertSafe a s) :
    VgetInv (vgetStep a s) := by
  cases a with
  | lookup c key =>
    cases hc : s.calls c with
    | idle =>
      cases hget : ext2Ihashget s.hash key with
      | none =>
        simp only [vgetStep, vgetMove, hc, hget]
        apply h.move c (.missed key s.now) s.nextVnode _ le_rfl
        · intro k start vp hv
          cases hv
        · intro k start hw
          cases hw
          exact Or.inr ⟨rfl, ihashget_none hget⟩
      | some vp =>
        obtain ⟨ip, hip, hkey, hvp⟩ := ihashget_some hget
        simp only [vgetStep, vgetMove, hc, hget, ← hvp]
        exact h.hit hip hkey
    | _ =>
      simp only [vgetStep, vgetMove, hc]
      exact h.stay
  | read c ok =>
    cases hc : s.calls c with
    | missed key start =>
      simp only [vgetStep, vgetMove, hc]
      apply h.move c _ s.nextVnode _ le_rfl
      · intro k start' vp hv
        cases ok <;> cases hv
      · intro k start' hw
        left
        rw [hc]
        cases ok
        · cases hw
        · exact hw
    | _ =>
      simp only [vgetStep, vgetMove, hc]
      exact h.stay
  | create c ok =>
    cases hc : s.calls c with
    | filled key start =>
      cases ok
      · simp only [vgetStep, vgetMove, hc, Bool.false_eq_true, if_false]
        apply h.move c .returned s.nextVnode _ le_rfl
        · intro k start' vp hv
          cases hv
        · intro k start' hw
          cases hw
      · simp only [vgetStep, vgetMove, hc, if_true]
        apply h.move c (.created key start s.nextVnode) (s.nextVnode + 1) _ (Nat.le_succ _)
        · intro k start' vp hv
          cases hv
          exact ⟨rfl, Nat.lt_succ_self _⟩
        · intro k start' hw
          left
          rw [hc]
          exact hw
    | _ =>
      simp only [vgetStep, vgetMove, hc]
      exact h.stay
  | insert c =>
    cases hc : s.calls c with
    | created key start vp =>
      simp only [vgetStep, vgetMove, hc, ext2Ihashins]
      exact h.insert hc (hsafe key start vp hc)
    | _ =>
      simp only [vgetStep, vgetMove, hc]
      exact h.stay
  | reclaim vp => exact h.reclaim vp

/-- **One step.**  A step keeps the hash and the returned vnodes consistent exactly when it is
safe. -/
theorem keeps_iff (h : VgetInv s) (a : VgetStep K) : VgetKeeps (vgetStep a s) ↔ InsertSafe a s := by
  constructor
  · intro hkeeps
    cases a with
    | insert c =>
      intro key start vp hc r hr hins hk
      by_contra hge
      have hsame := hkeeps.same
      simp only [vgetStep, vgetMove, hc, List.pairwise_cons] at hsame
      have hvp := hsame.1 r hr hk.symm ⟨by show start ≤ r.finish; omega, by
        have hpast := h.past r hr
        show r.start ≤ s.now
        omega⟩
      exact (h.made c key start vp hc).2 r hr hvp.symm
    | _ => trivial
  · intro hsafe
    exact (h.step hsafe).toVgetKeeps

/-- **Runs of lookups and reclaims.**  In every run of safe steps at most one inode of a number is
hashed, and overlapping calls for one number that succeed return the same vnode; the next step keeps
this exactly when it is safe too. -/
theorem vget_runs
    (h : Runs.Reach vgetStep InsertSafe (fun s : VgetSys K => s = VgetSys.initial) s) :
    VgetKeeps s ∧ ∀ a, VgetKeeps (vgetStep a s) ↔ InsertSafe a s := by
  have hinv : VgetInv s := by
    refine h.invariant ?_ ?_
    · intro s hs
      rw [hs]
      exact vgetInv_initial
    · intro a s hinv hsafe
      exact hinv.step hsafe
  exact ⟨hinv.toVgetKeeps, keeps_iff hinv⟩

end Runs

/-! ### A run of one call, and one of two -/

/-- A call that has looked its inode up, read it and made its vnode. -/
def oneCall : VgetSys (ℕ × ℕ) :=
  vgetStep (.create 0 true) (vgetStep (.read 0 true) (vgetStep (.lookup 0 (0, 12)) VgetSys.initial))

theorem oneCall_keeps :
    VgetKeeps oneCall ∧ ∀ a, VgetKeeps (vgetStep a oneCall) ↔ InsertSafe a oneCall :=
  vget_runs (.call _ (.call _ (.call _ (.start rfl) trivial) trivial) trivial)

/-- Two calls look inode 12 up before either has inserted it. -/
def twoCalls : VgetSys (ℕ × ℕ) :=
  [.lookup 0 (0, 12), .lookup 1 (0, 12), .read 0 true, .read 1 true, .create 0 true, .create 1 true,
    .insert 0, .insert 1].foldl (fun s a => vgetStep a s) VgetSys.initial

/-- The hash then holds two inodes of that number, and the calls have different vnodes. -/
theorem twoCalls_collide :
    twoCalls.hash = [⟨(0, 12), 1⟩, ⟨(0, 12), 0⟩] ∧ ¬VgetKeeps twoCalls := by
  have hhash : twoCalls.hash = [⟨(0, 12), 1⟩, ⟨(0, 12), 0⟩] := by decide +kernel
  refine ⟨hhash, ?_⟩
  intro h
  have hunique := h.unique
  rw [hhash] at hunique
  exact absurd hunique (by decide)

end Ext2fs
