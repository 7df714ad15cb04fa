import Ext2fs.DirEdit
import Ext2fs.Lib.Runs

/-!
# Two clients in one directory

A request is a lookup and then a change, and between the two the place of the change is kept in the
inode of the directory.  The directory is not locked meanwhile, though the comment in
`ext2_lookup_ino` says that the place is of no use otherwise; so the vnops of two clients come in any
order.

* `DirSys`, `dirStep` — the directory, the requests that have had their lookup, and what should be in
  the directory;
* `DirSound` — the directory is well formed and holds exactly that;
* `DirSafe` — the place in the inode is one for the request that is carried out;
* `dir_runs` — the directory stays sound in every run whose steps are safe, and a change right after
  its own lookup is safe.
-/

namespace Ext2fs

open Bytes Runs

/-! ### The system -/

/-- An entry to be made: an inode number of 32 bits and a name of 1 to 255 bytes. -/
structure NewEntry where
  ip : EntryIno
  name : List UInt8
  number_pos : 0 < ip.number
  number_lt : ip.number < 2 ^ 32
  name_pos : 1 ≤ name.length
  name_le : name.length ≤ EXT2FS_MAXNAMLEN

/-- A request: `create`, `link` or `mkdir`, which make an entry, `remove` or `rmdir`, which take one
out. -/
inductive DirReq where
  | enter (n : NewEntry)
  | remove (name : List UInt8)

/-- The name of a request. -/
def DirReq.name : DirReq → List UInt8
  | enter n => n.name
  | remove name => name

/-- The operation of its lookup. -/
def DirReq.op : DirReq → NameiOp
  | enter _ => .create
  | remove _ => .delete

/-- The lookup says that the request can be carried out. -/
def DirReq.accepts : DirReq → LookupRes → Bool
  | enter _, .justReturn => true
  | remove _, .found _ => true
  | _, _ => false

/-- The directory and the two clients. -/
structure DirSys where
  dir : Directory
  /-- the request of a client that has had its lookup -/
  pend : Bool → Option DirReq
  /-- the entries at the start, with the effects of the requests that were successful -/
  expected : List Dirent
  /-- a panic, or a loop without end -/
  halted : Bool

/-- The vnops of a client. -/
inductive DirMove where
  | look (c : Bool) (q : DirReq) (env : LookupEnv)
  | change (c : Bool) (env : EnterEnv)

/-- The change of a request. -/
def DirReq.change (fs : MExt2fs) (env : EnterEnv) (d : Directory) : DirReq → DirRes × Directory
  | enter n => ext2Direnter fs env n.ip n.name d
  | remove _ => ext2Dirremove fs env d

/-- What a request is to do to the entries. -/
def DirReq.effect (env : EnterEnv) (es : List Dirent) : DirReq → List Dirent
  | enter n => newDirent env n.ip n.name :: es
  | remove name => es.filter fun e => e.name ≠ name

/-- One vnop.  A client looks up when it has no request on the way, and not the name of the other
client's request. -/
def dirStep (fs : MExt2fs) : DirMove → DirSys → DirSys
  | .look c q env, s =>
      if s.halted = false ∧ s.pend c = none ∧ (s.pend (!c)).map DirReq.name ≠ some q.name then
        let r := ext2Lookup fs env q.op q.name s.dir
        { s with
          dir := r.2
          pend := if q.accepts r.1 then Function.update s.pend c (some q) else s.pend
          halted := r.1 == .panic }
      else s
  | .change c env, s =>
      if s.halted = false then
        match s.pend c with
        | none => s
        | some q =>
            let r := q.change fs env s.dir
            { dir := r.2
              pend := Function.update s.pend c none
              expected := if r.1 = .done none then q.effect env s.expected else s.expected
              halted := r.1 == .panic || r.1 == .hang }
      else s

/-- The directory is well formed and holds what it should, and there was no panic. -/
structure DirSound (fs : MExt2fs) (s : DirSys) : Prop where
  running : s.halted = false
  sound : ∃ blocks, s.dir.Wf fs blocks ∧ blocks.flatten.Perm s.expected

/-- The place in the inode is one for the request. -/
def DirReq.Ready (fs : MExt2fs) (d : Directory) (blocks : List (List Dirent)) : DirReq → Prop
  | enter n => EnterReady fs d blocks n.name
  | remove name => RemoveReady fs d blocks name

/-- The condition on a step: the directory is block-mapped and has less than 2 GiB, and a change finds a
place for its own request in the inode and does not fail. -/
def DirSafe (fs : MExt2fs) (a : DirMove) (s : DirSys) : Prop :=
  s.dir.extents = false ∧ s.dir.size < 2 ^ 31 ∧
    match a with
    | .look _ _ _ => True
    | .change c env => env.Ok ∧ ∀ q blocks, s.pend c = some q → s.dir.Wf fs blocks → q.Ready fs s.dir blocks

/-- A start: a well-formed directory, and no request on the way. -/
def DirStart (fs : MExt2fs) (s : DirSys) : Prop := DirSound fs s ∧ ∀ c, s.pend c = none

/-! ### A lookup -/

section

variable {fs : MExt2fs} {d : Directory} {blocks : List (List Dirent)} {s : DirSys}

/-- The end of a lookup leaves the contents and the mapping, and is no panic. -/
theorem lookupFound_same (B : ℕ) (env : LookupEnv) (op : NameiOp) (t : Scan) (d : Directory) :
    (lookupFound B env op t d).2.data = d.data ∧ (lookupFound B env op t d).2.size = d.size ∧
      (lookupFound B env op t d).2.extents = d.extents ∧
      (lookupFound B env op t d).1 ≠ .panic ∧ (lookupFound B env op t d).1 ≠ .justReturn := by
  have hget : ∀ (d' : Directory) (ino : ℕ),
      lookupVget env d' ino ≠ .panic ∧ lookupVget env d' ino ≠ .justReturn := by
    intro d' ino
    unfold lookupVget
    split
    · exact ⟨nofun, nofun⟩
    · split <;> exact ⟨nofun, nofun⟩
  cases op with
  | lookup => exact ⟨rfl, rfl, rfl, hget _ _⟩
  | create => exact ⟨rfl, rfl, rfl, hget _ _⟩
  | delete =>
    unfold lookupFound
    dsimp only
    split
    · exact ⟨rfl, rfl, rfl, nofun, nofun⟩
    · exact ⟨rfl, rfl, rfl, hget _ _⟩
  | rename =>
    unfold lookupFound
    dsimp only
    split
    · exact ⟨rfl, rfl, rfl, nofun, nofun⟩
    · exact ⟨rfl, rfl, rfl, hget _ _⟩

theorem lookupNotFound_same (B : ℕ) (op : NameiOp) (t : Scan) (d : Directory) :
    (lookupNotFound B op t d).2.data = d.data ∧ (lookupNotFound B op t d).2.size = d.size ∧
      (lookupNotFound B op t d).2.extents = d.extents ∧ (lookupNotFound B op t d).1 ≠ .panic := by
  unfold lookupNotFound
  split
  · split <;> exact ⟨rfl, rfl, rfl, nofun⟩
  · exact ⟨rfl, rfl, rfl, nofun⟩

/-- **A lookup leaves the contents** and the mapping, and one that gives a slot for a name has not found
it. -/
theorem lookup_same (hwf : d.Wf fs blocks) (hsmall : d.size < 2 ^ 31) (env : LookupEnv) {op : NameiOp}
    (hop : op ≠ .lookup) (name : List UInt8) :
    (ext2Lookup fs env op name d).2.data = d.data ∧ (ext2Lookup fs env op name d).2.size = d.size ∧
      (ext2Lookup fs env op name d).2.extents = d.extents ∧ (ext2Lookup fs env op name d).1 ≠ .panic ∧
      ((ext2Lookup fs env op name d).1 = .justReturn → ∀ e ∈ blocks.flatten, e.name ≠ name) := by
  rcases lookup_cases name hwf hsmall env hop with ⟨-, h⟩ | ⟨t, k, pre, post, -, h⟩ | ⟨t, h, hinv⟩
  · rw [h]
    exact ⟨rfl, rfl, rfl, nofun, nofun⟩
  · rw [h]
    obtain ⟨hdata, hsize, hmap, hpanic, hreturn⟩ := lookupFound_same fs.bsize env op t d
    exact ⟨hdata, hsize, hmap, hpanic, fun hjust => absurd hjust hreturn⟩
  · rw [h]
    obtain ⟨hdata, hsize, hmap, hpanic⟩ := lookupNotFound_same fs.bsize op t d
    refine ⟨hdata, hsize, hmap, hpanic, fun _ e he => ?_⟩
    obtain ⟨block, hblock, hmem⟩ := List.mem_flatten.mp he
    obtain ⟨j, hj, rfl⟩ := List.getElem_of_mem hblock
    apply hinv.unseen j hj e
    rwa [List.getD_eq_getElem?_getD, List.getElem?_eq_getElem hj]

/-! ### The invariant -/

/-- The invariant: a sound directory, and requests on the way for different names, where a name that is
to be entered is not there. -/
structure DirInv (fs : MExt2fs) (s : DirSys) : Prop extends DirSound fs s where
  fresh : ∀ c n, s.pend c = some (.enter n) → ∀ e ∈ s.expected, e.name ≠ n.name
  apart : ∀ c q q', s.pend c = some q → s.pend (!c) = some q' → q.name ≠ q'.name

theorem DirReq.op_ne (q : DirReq) : q.op ≠ .lookup := by
  cases q <;> exact nofun

/-- The lookup of a new entry is right when it gives a slot. -/
theorem DirReq.eq_of_accepts {n : NewEntry} {r : LookupRes} (h : (DirReq.enter n).accepts r = true) :
    r = .justReturn := by
  cases r with
  | justReturn => rfl
  | found ino => cases h
  | failed e => cases h
  | panic => cases h

/-- A lookup keeps the invariant. -/
theorem DirInv.look (h : DirInv fs s) (hsmall : s.dir.size < 2 ^ 31) (c : Bool) (q : DirReq)
    (env : LookupEnv) : DirInv fs (dirStep fs (.look c q env) s) := by
  by_cases hguard : s.halted = false ∧ s.pend c = none ∧ (s.pend (!c)).map DirReq.name ≠ some q.name
  swap
  · rw [dirStep, if_neg hguard]
    exact h
  rw [dirStep, if_pos hguard]
  obtain ⟨-, hidle, hother⟩ := hguard
  obtain ⟨blocks, hwf, hperm⟩ := h.sound
  obtain ⟨hdata, hsize, -, hpanic, hnew⟩ := lookup_same hwf hsmall env q.op_ne q.name
  -- the requests on the way are those there were, or the new one with them
  have hpend : ∀ c' q', (if q.accepts (ext2Lookup fs env q.op q.name s.dir).1 then
      Function.update s.pend c (some q) else s.pend) c' = some q' →
      s.pend c' = some q' ∨
        (c' = c ∧ q' = q ∧ q.accepts (ext2Lookup fs env q.op q.name s.dir).1 = true) := by
    intro c' q' hq'
    split at hq'
    · rename_i hacc
      by_cases hc : c' = c
      · subst hc
        rw [Function.update_self] at hq'
        exact .inr ⟨rfl, (Option.some.inj hq').symm, hacc⟩
      · rw [Function.update_of_ne hc] at hq'
        exact .inl hq'
    · exact .inl hq'
  have hne : ∀ q', s.pend (!c) = some q' → q'.name ≠ q.name := by
    intro q' hq' heq
    rw [hq'] at hother
    exact hother (congrArg some heq)
  exact {
    running := by
      show (_ == _) = false
      rw [beq_eq_false_iff_ne]
      exact hpanic
    sound := ⟨blocks, hwf.congr hdata hsize, hperm⟩
    fresh := fun c' n hn e he => by
      rcases hpend c' _ hn with hold | ⟨-, rfl, hacc⟩
      · exact h.fresh c' n hold e he
      · exact hnew (DirReq.eq_of_accepts hacc) e (hperm.mem_iff.mpr he)
    apart := fun c' q₁ q₂ h₁ h₂ => by
      rcases hpend c' q₁ h₁ with hold₁ | ⟨rfl, rfl, -⟩
      · rcases hpend (!c') q₂ h₂ with hold₂ | ⟨hc, rfl, -⟩
        · exact h.apart c' q₁ q₂ hold₁ hold₂
        · apply hne
          rwa [← hc, Bool.not_not]
      · rcases hpend (!c') q₂ h₂ with hold₂ | ⟨hc, -, -⟩
        · exact (hne q₂ hold₂).symm
        · exact absurd hc (Bool.not_ne_self c') }

/-- A request that is carried out in its place has its effect. -/
theorem change_spec (hfrag : fs.fsize = fs.bsize) (hwf : d.Wf fs blocks) (hmap : d.extents = false)
    (hsmall : d.size < 2 ^ 31) {env : EnterEnv} (henv : env.Ok)
    (q : DirReq) (hready : q.Ready fs d blocks)
    (hfresh : ∀ n, q = .enter n → ∀ e ∈ blocks.flatten, e.name ≠ n.name) :
    ∃ d' blocks', q.change fs env d = (.done none, d') ∧ d'.Wf fs blocks' ∧
      blocks'.flatten.Perm (q.effect env blocks.flatten) := by
  cases q with
  | enter n =>
    exact direnter_spec hfrag hwf hmap henv hready (lt_trans hsmall (by norm_num))
      ⟨n.number_pos, n.number_lt⟩
      n.name_le (hfresh n rfl)
  | remove name =>
    obtain ⟨d', blocks', e, hrun, hwf', rfl, hperm⟩ := dirremove_spec hwf henv hready
    refine ⟨d', blocks', hrun, hwf', ?_⟩
    have hnames := ((hperm.map Dirent.name).nodup_iff).mp hwf.names
    rw [List.map_cons, List.nodup_cons] at hnames
    have hkept : (e :: blocks'.flatten).filter (fun e' => e'.name ≠ e.name) = blocks'.flatten := by
      rw [List.filter_cons_of_neg (by simp), List.filter_eq_self]
      intro e' he'
      rw [decide_eq_true_iff]
      exact fun heq => hnames.1 (heq ▸ List.mem_map_of_mem he')
    have := (hperm.filter fun e' => e'.name ≠ e.name).symm
    rwa [hkept] at this

/-- The effect of a request depends on the entries, and not on their order. -/
theorem effect_perm (q : DirReq) (env : EnterEnv) {es es' : List Dirent} (h : es.Perm es') :
    (q.effect env es).Perm (q.effect env es') := by
  cases q with
  | enter n => exact h.cons _
  | remove name => exact h.filter _

/-- What a request leaves there has its name, or was there before. -/
theorem mem_effect {q : DirReq} {env : EnterEnv} {es : List Dirent} {e : Dirent}
    (h : e ∈ q.effect env es) : e.name = q.name ∨ e ∈ es := by
  cases q with
  | enter n =>
    rcases List.mem_cons.mp h with rfl | h
    · exact .inl rfl
    · exact .inr h
  | remove name => exact .inr (List.mem_of_mem_filter h)

/-- A change in the place for it keeps the invariant. -/
theorem DirInv.change (hfrag : fs.fsize = fs.bsize) (h : DirInv fs s) (hmap : s.dir.extents = false)
    (hsmall : s.dir.size < 2 ^ 31) (c : Bool) {env : EnterEnv} (henv : env.Ok)
    (hready : ∀ q blocks, s.pend c = some q → s.dir.Wf fs blocks → q.Ready fs s.dir blocks) :
    DirInv fs (dirStep fs (.change c env) s) := by
  rw [dirStep, if_pos h.running]
  cases hpend : s.pend c with
  | none => exact h
  | some q =>
    obtain ⟨blocks, hwf, hperm⟩ := h.sound
    have hfresh : ∀ n, q = .enter n → ∀ e ∈ blocks.flatten, e.name ≠ n.name := by
      rintro n rfl e he
      exact h.fresh c n hpend e (hperm.mem_iff.mp he)
    obtain ⟨d', blocks', hrun, hwf', hperm'⟩ :=
      change_spec hfrag hwf hmap hsmall henv q (hready q blocks hpend hwf) hfresh
    -- only the other client can have a request on the way now
    have hother : ∀ c' q', Function.update s.pend c none c' = some q' →
        c' = !c ∧ s.pend (!c) = some q' := by
      intro c' q' hq'
      by_cases hc : c' = c
      · rw [hc, Function.update_self] at hq'
        cases hq'
      · have hc' : c' = !c := Bool.eq_not.mpr hc
        rw [Function.update_of_ne hc, hc'] at hq'
        exact ⟨hc', hq'⟩
    simp only [hrun]
    exact {
      running := rfl
      sound := ⟨blocks', hwf', hperm'.trans (effect_perm q env hperm)⟩
      fresh := fun c' n hn e he => by
        obtain ⟨-, hn⟩ := hother c' _ hn
        rcases mem_effect he with hname | hold
        · rw [hname]
          exact h.apart c q _ hpend hn
        · exact h.fresh _ n hn e hold
      apart := fun c' q₁ q₂ h₁ h₂ => by
        obtain ⟨hc₁, -⟩ := hother c' q₁ h₁
        obtain ⟨hc₂, -⟩ := hother (!c') q₂ h₂
        rw [hc₁, Bool.not_not] at hc₂
        exact absurd hc₂ (Bool.self_ne_not c) }

/-- The invariant holds at the start. -/
theorem dirInv_start (h : DirStart fs s) : DirInv fs s where
  toDirSound := h.1
  fresh c n hn := by
    rw [h.2 c] at hn
    cases hn
  apart c q q' hq := by
    rw [h.2 c] at hq
    cases hq

/-- A lookup that is right for its request leaves a place for it. -/
theorem look_ready (hwf : d.Wf fs blocks) (hsmall : d.size < 2 ^ 31) {env : LookupEnv}
    (hread : ∀ j, env.read j = true) (hvget : ∀ ino, env.vget ino = none) (hsticky : env.sticky = false)
    (q : DirReq) (hacc : q.accepts (ext2Lookup fs env q.op q.name d).1 = true) :
    q.Ready fs (ext2Lookup fs env q.op q.name d).2 blocks := by
  cases q with
  | enter n =>
    have hjust : (ext2Lookup fs env .create n.name d).1 = .justReturn := DirReq.eq_of_accepts hacc
    obtain ⟨-, -, -, -, hnew⟩ := lookup_same hwf hsmall env (DirReq.enter n).op_ne n.name
    have hlive : d.nlink ≠ 0 := by
      intro hdead
      rcases lookup_cases n.name hwf hsmall env (DirReq.enter n).op_ne with
        ⟨-, h⟩ | ⟨t, k, pre, post, -, h⟩ | ⟨t, h, -⟩
      · rw [show NameiOp.create = (DirReq.enter n).op from rfl, h] at hjust
        cases hjust
      · rw [show NameiOp.create = (DirReq.enter n).op from rfl, h] at hjust
        exact (lookupFound_same fs.bsize env _ t d).2.2.2.2 hjust
      · rw [show NameiOp.create = (DirReq.enter n).op from rfl, h, lookupNotFound,
          if_neg (fun hc => hc.2 hdead)] at hjust
        cases hjust
    obtain ⟨offset, count, endoff, hlookup, hready⟩ :=
      lookup_create hwf hsmall hlive hread (show NameiOp.create.wantsSlot = true from rfl) (hnew hjust)
    show EnterReady fs (ext2Lookup fs env .create n.name d).2 blocks n.name
    rw [hlookup]
    exact hready
  | remove name =>
    show RemoveReady fs (ext2Lookup fs env .delete name d).2 blocks name
    rcases lookup_cases name hwf hsmall env (show NameiOp.delete ≠ .lookup by decide) with
      ⟨⟨j, hj⟩, -⟩ | ⟨t, k, pre, post, hf, -⟩ | ⟨t, h, -⟩
    · rw [hread j] at hj
      cases hj
    · obtain ⟨offset, count, hlookup, hready⟩ := lookup_delete hwf hsmall hread hvget hsticky hf.mem
      have hname : (direntAt d.data t.offset).name = name := hf.name
      rw [hname] at hlookup hready
      rw [hlookup]
      exact hready
    · have hlookup : (ext2Lookup fs env .delete name d).1 = .failed .enoent := by
        rw [h, lookupNotFound, if_neg (fun hc => absurd hc.1 (by decide))]
      have hacc : (DirReq.remove name).accepts (ext2Lookup fs env .delete name d).1 = true := hacc
      rw [hlookup] at hacc
      cases hacc

/-- **A change right after its own lookup is safe**, when nothing fails. -/
theorem change_after_look (hmap : s.dir.extents = false) (hsmall : s.dir.size < 2 ^ 31) {c : Bool}
    {q : DirReq}
    {lenv : LookupEnv} (hread : ∀ j, lenv.read j = true) (hvget : ∀ ino, lenv.vget ino = none)
    (hsticky : lenv.sticky = false) {env : EnterEnv} (henv : env.Ok) (h : DirInv fs s)
    (hidle : s.pend c = none) (hacc : (dirStep fs (.look c q lenv) s).pend c = some q) :
    DirSafe fs (.change c env) (dirStep fs (.look c q lenv) s) := by
  by_cases hguard : s.halted = false ∧ s.pend c = none ∧ (s.pend (!c)).map DirReq.name ≠ some q.name
  swap
  · rw [dirStep, if_neg hguard, hidle] at hacc
    cases hacc
  obtain ⟨blocks, hwf, -⟩ := h.sound
  obtain ⟨hdata, hsize, hextents, -, -⟩ := lookup_same hwf hsmall lenv q.op_ne q.name
  have hacc' : q.accepts (ext2Lookup fs lenv q.op q.name s.dir).1 = true := by
    by_contra hno
    rw [dirStep, if_pos hguard] at hacc
    have hacc : (if q.accepts (ext2Lookup fs lenv q.op q.name s.dir).1 then
      Function.update s.pend c (some q) else s.pend) c = some q := hacc
    rw [if_neg hno, hidle] at hacc
    cases hacc
  refine ⟨?_, ?_, henv, ?_⟩
  · rw [dirStep, if_pos hguard]
    exact hextents.trans hmap
  · rw [dirStep, if_pos hguard]
    show (ext2Lookup fs lenv q.op q.name s.dir).2.size < 2 ^ 31
    rw [hsize]
    exact hsmall
  · intro q' blocks' hq' hwf'
    obtain rfl : q = q' := Option.some.inj (hacc.symm.trans hq')
    rw [dirStep, if_pos hguard] at hwf' ⊢
    exact look_ready (hwf'.congr hdata.symm hsize.symm) hsmall hread hvget hsticky q hacc'

/-- **Two clients in one directory** of a volume without fragments.  In every run in which the changes find
a place for their own request, the directory stays sound; and the change right after its own lookup finds
one. -/
theorem dir_runs (hfrag : fs.fsize = fs.bsize) (h : Reach (dirStep fs) (DirSafe fs) (DirStart fs) s) :
    DirSound fs s ∧
      ∀ c q lenv env, s.dir.extents = false → s.dir.size < 2 ^ 31 → (∀ j, lenv.read j = true) →
        (∀ ino, lenv.vget ino = none) → lenv.sticky = false → env.Ok → s.pend c = none →
        (dirStep fs (.look c q lenv) s).pend c = some q →
          DirSafe fs (.change c env) (dirStep fs (.look c q lenv) s) := by
  have hinv : DirInv fs s := by
    refine h.invariant (fun s hs => dirInv_start hs) ?_
    intro a s hinv hsafe
    cases a with
    | look c q env => exact hinv.look hsafe.2.1 c q env
    | change c env => exact hinv.change hfrag hsafe.1 hsafe.2.1 c hsafe.2.2.1 hsafe.2.2.2
  refine ⟨hinv.toDirSound, ?_⟩
  intro c q lenv env hmap hsmall hread hvget hsticky henv hidle hacc
  exact change_after_look hmap hsmall hread hvget hsticky henv hinv hidle hacc

end

/-! ### Two entries -/

/-- A directory of one block with the entries `a` and `b`. -/
def pairDir : Directory where
  data i :=
    [11, 0, 0, 0, 12, 0, 1, 1, 97, 0, 0, 0, 14, 0, 0, 0, 0xf4, 0x0f, 1, 1, 98, 0, 0, 0].getD i 0
  size := 4096
  nlink := 2
  number := 2
  count := 0
  offset := 0
  endoff := 0
  diroff := 0

theorem pairDir_wf : pairDir.Wf volume4k [[⟨11, 1, [97]⟩, ⟨14, 1, [98]⟩]] where
  size := rfl
  chain k hk := by
    obtain rfl : k = 0 := by
      rw [List.length_singleton] at hk
      omega
    have hr₀ : Record pairDir.data 0 := ⟨by decide, by decide⟩
    have hr₁ : Record pairDir.data 12 := ⟨by decide, by decide⟩
    exact .cons hr₀ (.cons hr₁ (.nil 4096))
  names := by decide

/-- The file `c`. -/
def entryC : NewEntry := ⟨⟨15, 0x81a4⟩, [99], by decide, by decide, by decide, by decide⟩

/-- Two clients at the directory. -/
def pairSys : DirSys := ⟨pairDir, fun _ => none, [⟨11, 1, [97]⟩, ⟨14, 1, [98]⟩], false⟩

theorem pairSys_start : DirStart volume4k pairSys :=
  ⟨⟨rfl, _, pairDir_wf, .refl _⟩, fun _ => rfl⟩

/-- The first client looks up `c` to enter it. -/
def pairLooked : DirSys := dirStep volume4k (.look true (.enter entryC) goodLookup) pairSys

/-- The first client enters `c`, right after its lookup. -/
theorem dir_runs_example :
    DirSound volume4k (dirStep volume4k (.change true goodEnter) pairLooked) ∧
      ∀ c q lenv env, (dirStep volume4k (.change true goodEnter) pairLooked).dir.extents = false →
        (dirStep volume4k (.change true goodEnter) pairLooked).dir.size < 2 ^ 31 →
        (∀ j, lenv.read j = true) → (∀ ino, lenv.vget ino = none) → lenv.sticky = false → env.Ok →
        (dirStep volume4k (.change true goodEnter) pairLooked).pend c = none →
        (dirStep volume4k (.look c q lenv) (dirStep volume4k (.change true goodEnter) pairLooked)).pend c =
          some q →
          DirSafe volume4k (.change c env)
            (dirStep volume4k (.look c q lenv) (dirStep volume4k (.change true goodEnter) pairLooked)) :=
  dir_runs rfl (.call (DirMove.change true goodEnter)
    (.call (DirMove.look true (.enter entryC) goodLookup) (.start pairSys_start) ⟨rfl, by decide, trivial⟩)
    (change_after_look rfl (by decide) (fun _ => rfl) (fun _ => rfl) rfl goodEnter_ok
      (dirInv_start pairSys_start) rfl rfl))

/-- The second client looks up `a` to remove it before the first client enters `c`. -/
def pairClobbered : DirSys :=
  dirStep volume4k (.change true goodEnter)
    (dirStep volume4k (.look false (.remove [97]) goodLookup) pairLooked)

/-- **A lookup in between loses entries**: the entry `c` is written over `a`, and `b` is gone. -/
theorem pairClobbered_unsound :
    Reach (dirStep volume4k) (fun _ _ => True) (DirStart volume4k) pairClobbered ∧
      pairClobbered.expected.length = 3 ∧ ¬DirSound volume4k pairClobbered := by
  refine ⟨.call _ (.call _ (.call _ (.start pairSys_start) trivial) trivial) trivial, rfl, ?_⟩
  rintro ⟨-, blocks, hwf, hperm⟩
  have hlen : blocks.length = 1 := by
    have hsize : 4096 = blocks.length * 4096 := hwf.size
    omega
  have hreclen : e2dReclen pairClobbered.dir.data 0 = 4096 := by decide +kernel
  have hchain := hwf.chain 0 (by omega)
  have hstop : (0 + 1) * volume4k.bsize = 4096 := rfl
  rw [Nat.zero_mul, hstop] at hchain
  obtain ⟨-, rest, hblock, hrest⟩ := hchain.uncons (by decide)
  rw [Nat.zero_add, hreclen] at hrest
  have hone : blocks.flatten.length ≤ 1 := by
    obtain ⟨b, rfl⟩ := List.length_eq_one_iff.mp hlen
    have hb : b = liveAt pairClobbered.dir.data 0 := by
      rw [hrest.eq_nil, List.append_nil] at hblock
      exact hblock
    rw [List.flatten_singleton, hb, liveAt]
    split <;> decide
  have hthree : pairClobbered.expected.length = 3 := rfl
  rw [hperm.length_eq, hthree] at hone
  omega

end Ext2fs
