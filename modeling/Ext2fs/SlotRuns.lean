import Ext2fs.InodeLife

/-!
# Runs over one inode slot: the link count and the file handles

* `SlotInv` — the count in core is the number of links, and an inode that can be dropped is on disk;
  `slotInv_step`: every operation keeps it;
* `close_frees_iff` — the inode is freed only without links, and never where no name is removed,
  exactly when the count on disk is at most 32767;
* `handle_runs` — in runs that do not wrap the generation number, `ext2_fhtovp` accepts the handles of
  the file that is there and no others.
-/

namespace Ext2fs

open Runs

/-! ### Signed counts -/

section Signed

/-- A count in the positive range reads as itself. -/
theorem toInt_ofInt_of_pos {x : ℤ} (h : 1 ≤ x) (h' : x ≤ 32767) : (BitVec.ofInt 16 x).toInt = x := by
  rw [BitVec.toInt_ofInt, Int.bmod_def]
  split <;> omega

/-- A count that reads as none is none. -/
theorem nonpos_of_toInt {x : ℤ} (h' : x ≤ 32767) (h : (BitVec.ofInt 16 x).toInt ≤ 0) : x ≤ 0 := by
  by_contra hpos
  rw [toInt_ofInt_of_pos (by omega) h'] at h
  omega

/-- A count below the limit is below it as a number of links. -/
theorem lt_of_toInt_lt {x : ℤ} (h' : x ≤ 32767) (h : (BitVec.ofInt 16 x).toInt < EXT2_LINK_MAX) :
    x + 1 ≤ 32767 := by
  by_contra hbig
  rw [toInt_ofInt_of_pos (by omega) h'] at h
  unfold EXT2_LINK_MAX at h
  omega

theorem ofInt_natCast_toNat (n : BitVec 16) : BitVec.ofInt 16 (n.toNat : ℤ) = n := by
  apply BitVec.eq_of_toInt_eq
  rw [BitVec.toInt_ofInt, BitVec.toInt_eq_toNat_bmod]

end Signed

/-! ### The invariant -/

/-- The image is that of a free slot. -/
def DiskFree (ei : Ext2fsDinode) : Prop := ei.e2di_nlink = 0 ∨ ei.e2di_mode = 0

/-- The invariant while the inode is in core. -/
structure OpenInv (env : SlotEnv) (s : SlotSys) (ip : CoreInode) : Prop where
  links : s.inUse = true → s.links ≤ 32767 ∧ ip.i_nlink = BitVec.ofInt 16 s.links ∧ ip.i_mode ≠ 0
  /-- the inode is on disk, dirty or without links -/
  held : s.inUse = true → env.fs.ronly = false → Held ⟨ip, s.disk, ip⟩
  /-- a read-only mount keeps the count -/
  same : s.inUse = true → env.fs.ronly = true →
    1 ≤ s.links ∧ s.disk.e2di_nlink = ip.i_nlink ∧ s.disk.e2di_mode = ip.i_mode
  /-- between the last close and the eviction -/
  idle : s.inUse = true → s.idle = true →
    0 < ip.i_nlink.toInt ∧ (env.fs.ronly = false → ip.i_flag &&& IN_SYNCED = 0)
  free : s.inUse = false →
    ip.i_mode = 0 ∧ (env.fs.ronly = false ∧ ip.Lazy ∨ DiskFree s.disk)

/-- The invariant while it is not. -/
structure ClosedInv (env : SlotEnv) (s : SlotSys) : Prop where
  links : s.inUse = true → s.links ≤ 32767 ∧ s.disk.e2di_nlink = BitVec.ofInt 16 s.links ∧
    s.disk.e2di_nlink ≠ 0 ∧ s.disk.e2di_mode ≠ 0
  same : s.inUse = true → env.fs.ronly = true → 1 ≤ s.links
  free : s.inUse = false → DiskFree s.disk

/-- The invariant. -/
structure SlotInv (env : SlotEnv) (s : SlotSys) : Prop where
  opened : ∀ ip, s.core = some ip → OpenInv env s ip
  closed : s.core = none → ClosedInv env s

section Invariant

variable {env : SlotEnv} {s : SlotSys}

/-- An invariant of an inode in core. -/
theorem SlotInv.of_open {ip : CoreInode} (hcore : s.core = some ip) (h : OpenInv env s ip) :
    SlotInv env s := by
  constructor
  · intro ip' hip
    rw [hcore, Option.some.injEq] at hip
    rwa [← hip]
  · intro hnone
    rw [hcore] at hnone
    cases hnone

/-- An invariant of an inode that is not in core. -/
theorem SlotInv.of_closed (hcore : s.core = none) (h : ClosedInv env s) : SlotInv env s := by
  constructor
  · intro ip hip
    rw [hcore] at hip
    cases hip
  · exact fun _ => h

/-- What an operation leaves of a free inode. -/
theorem Moves.free {r r' : InCore} (h : Moves r r') (hmode : r.ip.i_mode = 0)
    (hfree : env.fs.ronly = false ∧ r.ip.Lazy ∨ DiskFree r.disk) :
    r'.ip.i_mode = 0 ∧ (env.fs.ronly = false ∧ r'.ip.Lazy ∨ DiskFree r'.disk) := by
  have hmode' := h.mode.trans hmode
  refine ⟨hmode', ?_⟩
  rcases h.disk with ⟨hdisk, hlazy⟩ | ⟨hput, -⟩
  · rcases hfree with ⟨hrw, hl⟩ | hd
    · exact .inl ⟨hrw, hlazy hl⟩
    · rw [hdisk]
      exact .inr hd
  · exact .inr (.inr (hput.trans hmode'))

/-- An operation that moves the count keeps the invariant. -/
theorem onWritable_inv {f : InCore → InCore × ℤ} (hf : ∀ r, CountSpec r (f r)) (h : SlotInv env s) :
    SlotInv env (s.onWritable env f) := by
  unfold SlotSys.onWritable
  cases hro : env.fs.ronly
  case true => exact h
  show SlotInv env (s.onOpen f)
  unfold SlotSys.onOpen
  rcases hcore : s.core with _ | ip
  · exact h
  cases hidle : s.idle
  case true => exact h
  have ho := h.opened ip hcore
  have hspec := hf ⟨ip, s.disk, ip⟩
  refine .of_open rfl ⟨?_, ?_, ?_, ?_, ?_⟩
  · intro huse
    obtain ⟨hle, hnlink, hmode⟩ := ho.links huse
    have hcount := hspec.count
    rw [show (⟨ip, s.disk, ip⟩ : InCore).ip.i_nlink = ip.i_nlink from rfl, hnlink,
      ← BitVec.ofInt_add] at hcount
    refine ⟨?_, hcount, ?_⟩
    · show s.links + _ ≤ 32767
      rcases hspec.bound with hneg | ⟨hone, hlt⟩
      · omega
      · rw [hone]
        apply lt_of_toInt_lt hle
        rwa [← hnlink]
    · exact fun h0 => hmode (hspec.moves.mode.symm.trans h0)
  · intro huse _
    exact hspec.held (ho.held huse hro)
  · intro _ hro'
    rw [hro] at hro'
    exact Bool.noConfusion hro'
  · intro _ hidle'
    exact absurd hidle' Bool.false_ne_true
  · intro huse
    obtain ⟨hmode, hfree⟩ := ho.free huse
    exact hspec.moves.free hmode hfree

/-- A step that is quiet, and leaves the slot of a read-only mount alone, keeps the invariant of an
inode that is not idle. -/
theorem OpenInv.keepsLinks {ip : CoreInode} {r' : InCore} (ho : OpenInv env s ip)
    (hq : KeepsLinks ⟨ip, s.disk, ip⟩ r') (hro : env.fs.ronly = true → r'.disk = s.disk) {idle : Bool}
    (hidle : s.inUse = true → idle = true →
      0 < ip.i_nlink.toInt ∧ (env.fs.ronly = false → r'.ip.i_flag &&& IN_SYNCED = 0)) :
    OpenInv env { s with core := some r'.ip, disk := r'.disk, idle } r'.ip where
  links huse := by
    obtain ⟨hle, hnlink, hmode⟩ := ho.links huse
    exact ⟨hle, hq.nlink.trans hnlink, fun h0 => hmode (hq.moves.mode.symm.trans h0)⟩
  held huse hrw := hq.held (ho.held huse hrw)
  same huse hr := by
    obtain ⟨hpos, hnlink, hmode⟩ := ho.same huse hr
    rw [show r'.ip.i_nlink = ip.i_nlink from hq.nlink, show r'.ip.i_mode = ip.i_mode from hq.moves.mode]
    show _ ∧ r'.disk.e2di_nlink = _ ∧ r'.disk.e2di_mode = _
    rw [hro hr]
    exact ⟨hpos, hnlink, hmode⟩
  idle huse hi := by
    rw [show r'.ip.i_nlink = ip.i_nlink from hq.nlink]
    exact hidle huse hi
  free huse := by
    obtain ⟨hmode, hfree⟩ := ho.free huse
    exact hq.moves.free hmode hfree

/-- `ext2_sync` keeps the invariant. -/
theorem sync_inv (ctx : OpCtx) (wait : Bool) (h : SlotInv env s) :
    SlotInv env (slotStep env (.sync ctx wait) s) := by
  show SlotInv env (s.onCore fun r => (ext2SyncCallback (env.vnode ctx) wait ctx.now .ok r).2)
  unfold SlotSys.onCore
  rcases hcore : s.core with _ | ip
  · exact h
  have ho := h.opened ip hcore
  refine .of_open rfl (ho.keepsLinks (syncCallback_keepsLinks _ _ _ _)
    (syncCallback_ronly (env.vnode ctx) ctx.now ⟨ip, s.disk, ip⟩ wait) ?_)
  · intro huse hi
    obtain ⟨hpos, hsynced⟩ := ho.idle huse hi
    refine ⟨hpos, fun hrw => ?_⟩
    unfold ext2SyncCallback
    rw [if_pos (hsynced hrw)]
    exact hsynced hrw

/-- The last close keeps the invariant. -/
theorem close_inv (ctx : OpCtx) (steps : List ContentStep) (h : SlotInv env s) :
    SlotInv env (slotStep env (.close ctx steps) s) := by
  rcases hcore : s.core with _ | ip
  · rwa [slotStep_close_none env ctx steps hcore]
  have ho := h.opened ip hcore
  rw [slotStep_close_some env ctx steps hcore]
  unfold SlotSys.onCore
  rw [hcore]
  by_cases hun : ip.Unlinked
  · have hrw : s.inUse = true → env.fs.ronly = false := by
      intro huse
      obtain ⟨hle, hnlink, -⟩ := ho.links huse
      cases hro : env.fs.ronly
      · rfl
      · have hpos := (ho.same huse hro).1
        have hnon := hun.2
        rw [hnlink, toInt_ofInt_of_pos hpos hle] at hnon
        omega
    have huse : s.inUse = true := by
      cases huse : s.inUse
      · exact absurd (ho.free huse).1 hun.1
      · rfl
    obtain ⟨hmode, -, hlast⟩ := inactive_unlinked (env.vnode ctx) ctx.now ⟨ip, s.disk, ip⟩
      (contentSteps_keepsLinks env ctx _ steps) hun (hrw huse)
    have hfalse : (s.inUse && !decide ip.Unlinked) = false := by simp [hun]
    refine .of_open rfl ⟨?_, ?_, ?_, ?_, fun _ => ⟨hmode, ?_⟩⟩
    · exact fun h' => absurd (hfalse.symm.trans h') Bool.false_ne_true
    · exact fun h' => absurd (hfalse.symm.trans h') Bool.false_ne_true
    · exact fun h' => absurd (hfalse.symm.trans h') Bool.false_ne_true
    · exact fun h' => absurd (hfalse.symm.trans h') Bool.false_ne_true
    · rcases hlast with hlazy | ⟨hdisk, -⟩
      · exact .inl ⟨hrw huse, hlazy⟩
      · exact .inr (.inr hdisk)
  · obtain ⟨hq, hro, hsynced⟩ :=
      inactive_linked (env.vnode ctx) ctx.now ⟨ip, s.disk, ip⟩ (contentSteps env ctx steps) hun
    have hkeep : (s.inUse && !decide ip.Unlinked) = s.inUse := by simp [hun]
    rw [hkeep]
    refine .of_open rfl (ho.keepsLinks hq hro ?_)
    intro huse _
    obtain ⟨-, -, hmode⟩ := ho.links huse
    exact ⟨not_le.1 fun hn => hun ⟨hmode, hn⟩, hsynced hmode⟩

/-- An idle inode of a file is on disk once `ext2_reclaim` is done with it. -/
theorem reclaim_agrees {ip : CoreInode} (ctx : OpCtx) (ho : OpenInv env s ip) (huse : s.inUse = true)
    (hidle : s.idle = true) (hrw : env.fs.ronly = false) :
    Agrees ip (ext2Reclaim (env.vnode ctx) ctx.now .ok ⟨ip, s.disk, ip⟩).2.disk := by
  obtain ⟨-, hstay, hwrite⟩ := reclaim_spec (env.vnode ctx) ctx.now ⟨ip, s.disk, ip⟩
  obtain ⟨hpos, hsynced⟩ := ho.idle huse hidle
  by_cases hlazy : ip.Lazy
  · exact hwrite hrw hlazy
  · rw [hstay hlazy]
    rcases ho.held huse hrw with hdirty | hagrees | hneg
    · exact absurd (lazy_of_dirty hdirty (hsynced hrw)) hlazy
    · exact hagrees
    · exact absurd hneg (not_le.2 hpos)

/-- The eviction keeps the invariant. -/
theorem evict_inv (ctx : OpCtx) (h : SlotInv env s) : SlotInv env (slotStep env (.evict ctx) s) := by
  show SlotInv env (if s.idle then _ else s)
  cases hidle : s.idle
  case false => exact h
  show SlotInv env { s.onCore _ with core := none }
  unfold SlotSys.onCore
  rcases hcore : s.core with _ | ip
  · have hc := h.closed hcore
    exact .of_closed rfl ⟨hc.links, hc.same, hc.free⟩
  have ho := h.opened ip hcore
  obtain ⟨hro, hstay, hwrite⟩ := reclaim_spec (env.vnode ctx) ctx.now ⟨ip, s.disk, ip⟩
  refine .of_closed rfl ⟨?_, ?_, ?_⟩
  · intro huse
    obtain ⟨hle, hnlink, hmode⟩ := ho.links huse
    have hpos := (ho.idle huse hidle).1
    have hne : ip.i_nlink ≠ 0 := by
      intro h0
      rw [h0] at hpos
      exact absurd hpos (by decide)
    have hfields : (ext2Reclaim (env.vnode ctx) ctx.now .ok ⟨ip, s.disk, ip⟩).2.disk.e2di_nlink =
          ip.i_nlink ∧
        (ext2Reclaim (env.vnode ctx) ctx.now .ok ⟨ip, s.disk, ip⟩).2.disk.e2di_mode = ip.i_mode := by
      cases hr : env.fs.ronly
      · have hagrees := reclaim_agrees ctx ho huse hidle hr
        exact ⟨hagrees.nlink, hagrees.mode⟩
      · rw [hro hr]
        exact (ho.same huse hr).2
    refine ⟨hle, hfields.1.trans hnlink, ?_, ?_⟩
    · exact fun h0 => hne (hfields.1.symm.trans h0)
    · exact fun h0 => hmode (hfields.2.symm.trans h0)
  · intro huse hr
    exact (ho.same huse hr).1
  · intro huse
    obtain ⟨hmode, hfree⟩ := ho.free huse
    show DiskFree (ext2Reclaim (env.vnode ctx) ctx.now .ok ⟨ip, s.disk, ip⟩).2.disk
    by_cases hlazy : ip.Lazy
    · rcases hfree with ⟨hrw, -⟩ | hd
      · exact .inr ((hwrite hrw hlazy).mode.trans hmode)
      · cases hr : env.fs.ronly
        · exact .inr ((hwrite hr hlazy).mode.trans hmode)
        · rw [hro hr]
          exact hd
    · rw [hstay hlazy]
      rcases hfree with ⟨-, hl⟩ | hd
      · exact absurd hl hlazy
      · exact hd

/-- What is read from the slot of a file is on disk, or has a new generation number and is dirty. -/
theorem vgetFill_held (rand : BitVec 32) {ei : Ext2fsDinode} {saved : CoreInode}
    (hnlink : ei.e2di_nlink ≠ 0) (hrw : env.fs.ronly = false) :
    Held ⟨vgetFill env.fs env.hasXtime rand ei, ei, saved⟩ := by
  by_cases hgen : ei.e2di_gen = 0
  · exact .inl (vgetFill_dirty env.fs env.hasXtime rand ei hrw hgen)
  · right; left
    refine ⟨(vgetFill_nlink _ _ _ _).symm, ?_, ?_⟩
    · rw [vgetFill_mode, if_pos hnlink]
    · rw [vgetFill_gen, if_neg hgen]

/-- A lookup keeps the invariant. -/
theorem lookup_inv (rand : BitVec 32) (h : SlotInv env s) :
    SlotInv env (slotStep env (.lookup rand) s) := by
  show SlotInv env { s with core := some (s.get env rand), idle := false }
  refine .of_open rfl ?_
  unfold SlotSys.get
  rcases hcore : s.core with _ | ip
  · have hc := h.closed hcore
    refine ⟨?_, ?_, ?_, fun _ h' => absurd h' Bool.false_ne_true, ?_⟩
    · intro huse
      obtain ⟨hle, hnlink, hne, hmode⟩ := hc.links huse
      refine ⟨hle, (vgetFill_nlink _ _ _ _).trans hnlink, ?_⟩
      rw [Option.getD_none, vgetFill_mode, if_pos hne]
      exact hmode
    · intro huse hrw
      exact vgetFill_held rand (hc.links huse).2.2.1 hrw
    · intro huse hro
      refine ⟨hc.same huse hro, (vgetFill_nlink _ _ _ _).symm, ?_⟩
      rw [Option.getD_none, vgetFill_mode, if_pos (hc.links huse).2.2.1]
    · intro huse
      have hfree := hc.free huse
      refine ⟨?_, .inr hfree⟩
      rw [Option.getD_none, vgetFill_mode]
      rcases hfree with h0 | h0
      · rw [if_neg (not_not.2 h0)]
      · rw [h0, ite_self]
  · have ho := h.opened ip hcore
    exact ⟨ho.links, ho.held, ho.same, fun _ h' => absurd h' Bool.false_ne_true, ho.free⟩

/-- A new file has a mode. -/
theorem stripSgid_ne_zero (member : Bool) (mode : BitVec 16) : stripSgid member (createMode mode) ≠ 0 := by
  have hcreate : createMode mode &&& 0xf000 ≠ 0 := by
    unfold createMode
    split
    · rw [BitVec.and_or_distrib_right]
      intro h0
      exact absurd (BitVec.or_eq_zero_iff.1 h0).2 (by decide)
    · assumption
  unfold stripSgid
  split
  · intro h0
    apply hcreate
    calc createMode mode &&& 0xf000
        = createMode mode &&& (~~~0x0400 &&& 0xf000) := by rfl
      _ = (createMode mode &&& ~~~0x0400) &&& 0xf000 := (BitVec.and_assoc _ _ _).symm
      _ = 0 := by rw [h0]; exact BitVec.zero_and
  · intro h0
    rw [h0] at hcreate
    exact hcreate BitVec.zero_and

/-- **The new inode.**  It has the links of a new file, a mode, the next generation number, and is on
disk or dirty. -/
theorem createInode_spec (ctx : OpCtx) (rand rand' uid gid : BitVec 32) (mode : BitVec 16)
    (directory member named : Bool) (s : SlotSys) :
    let r := createInode env ctx rand rand' uid gid mode directory member named s
    r.ip.i_nlink = BitVec.ofInt 16 (if named then (if directory then 2 else 1) else 0) ∧
      r.ip.i_mode ≠ 0 ∧ r.ip.i_gen = nextGen rand' (s.get env rand).i_gen ∧ Held r := by
  have hpatch : ∃ ip : CoreInode,
      (if directory then (vallocPatch ctx.now rand' (s.get env rand)).asNew uid gid
          ((mode &&& 0x01ff) ||| 0x4000) 2
        else (vallocPatch ctx.now rand' (s.get env rand)).asNew uid gid
          (stripSgid member (createMode mode)) 1) = ip ∧
        ip.i_nlink = BitVec.ofInt 16 (if directory then 2 else 1) ∧ ip.i_mode ≠ 0 ∧
        ip.i_gen = nextGen rand' (s.get env rand).i_gen ∧ ip.Dirty := by
    refine ⟨_, rfl, ?_⟩
    have hdirty : ∀ uid gid mode nlink,
        ((vallocPatch ctx.now rand' (s.get env rand)).asNew uid gid mode nlink).Dirty :=
      fun _ _ _ _ => CoreInode.dirty_mark (vallocPatch ctx.now rand' (s.get env rand)) IN_TIMES
        (by decide)
    cases directory
    · exact ⟨rfl, stripSgid_ne_zero _ _, rfl, hdirty _ _ _ _⟩
    · refine ⟨rfl, ?_, rfl, hdirty _ _ _ _⟩
      intro h0
      exact absurd (BitVec.or_eq_zero_iff.1 h0).2 (by decide)
  obtain ⟨ip, hip, hnlink, hmode, hgen, hdirty⟩ := hpatch
  unfold createInode
  simp only [hip]
  have hq := update_keepsLinks (env.vnode ctx) (directory || !env.async) ctx.now ⟨ip, s.disk, ip⟩
  cases named
  · refine ⟨rfl, fun h0 => hmode (hq.moves.mode.symm.trans h0), hq.moves.gen.trans hgen, .inl ?_⟩
    exact CoreInode.dirty_mark _ IN_CHANGE (by decide)
  · exact ⟨hq.nlink.trans hnlink, fun h0 => hmode (hq.moves.mode.symm.trans h0),
      hq.moves.gen.trans hgen, hq.held (.inl hdirty)⟩

/-- A creation keeps the invariant. -/
theorem create_inv (ctx : OpCtx) (rand rand' uid gid : BitVec 32) (mode : BitVec 16)
    (directory member named : Bool) (h : SlotInv env s) :
    SlotInv env (slotStep env (.create ctx rand rand' uid gid mode directory member named) s) := by
  show SlotInv env (if s.inUse ∨ env.fs.ronly then s else _)
  by_cases hguard : s.inUse ∨ env.fs.ronly
  · rw [if_pos hguard]
    exact h
  rw [if_neg hguard]
  have hrw : env.fs.ronly = false := by
    cases hr : env.fs.ronly
    · rfl
    · exact absurd (.inr hr) hguard
  obtain ⟨hnlink, hmode, -, hheld⟩ :=
    @createInode_spec env ctx rand rand' uid gid mode directory member named s
  refine .of_open rfl ⟨?_, fun _ _ => hheld, ?_, fun _ h' => absurd h' Bool.false_ne_true, ?_⟩
  · refine fun _ => ⟨?_, hnlink, hmode⟩
    show (if named then (if directory then 2 else 1) else 0 : ℤ) ≤ 32767
    cases named <;> cases directory <;> decide
  · intro _ hro
    rw [hrw] at hro
    cases hro
  · intro h'
    cases h'

/-- **Every operation keeps the invariant.** -/
theorem slotInv_step (op : SlotOp) (s : SlotSys) (h : SlotInv env s) :
    SlotInv env (slotStep env op s) := by
  cases op with
  | lookup rand => exact lookup_inv rand h
  | content ctx steps => exact onWritable_inv (fun r => (contentSteps_keepsLinks env ctx r steps).count) h
  | link ctx entered => exact onWritable_inv (fun r => linkCount_spec env ctx r entered) h
  | rename ctx entered removed =>
    exact onWritable_inv (fun r => renameCount_spec env ctx r entered removed) h
  | parent ctx entered => exact onWritable_inv (fun r => parentCount_spec env ctx r entered) h
  | remove => exact onWritable_inv removeCount_spec h
  | rmdir ctx steps => exact onWritable_inv (fun r => rmdirCount_spec env ctx r steps) h
  | replaceDir ctx steps => exact onWritable_inv (fun r => replaceDirCount_spec env ctx r steps) h
  | sync ctx wait => exact sync_inv ctx wait h
  | close ctx steps => exact close_inv ctx steps h
  | evict ctx => exact evict_inv ctx h
  | create ctx rand rand' uid gid mode directory member named =>
    exact create_inv ctx rand rand' uid gid mode directory member named h
  | handle =>
    rcases hcore : s.core with _ | ip
    · rwa [slotStep_handle_none env (.inl hcore)]
    cases hopen : !s.idle && s.inUse
    · rwa [slotStep_handle_none env (.inr hopen)]
    · have ho := h.opened ip hcore
      rw [slotStep_handle_some env hcore hopen, hcore]
      exact .of_open rfl ⟨ho.links, ho.held, ho.same, ho.idle, ho.free⟩

/-- A slot whose count is in the positive range meets the invariant at the start. -/
theorem slotInv_initial {ei : Ext2fsDinode} (h : ei.e2di_nlink.toNat ≤ 32767) :
    SlotInv env (SlotSys.initial ei) := by
  refine .of_closed rfl ⟨?_, ?_, ?_⟩
  · intro huse
    obtain ⟨hnlink, hmode⟩ := of_decide_eq_true huse
    refine ⟨?_, (ofInt_natCast_toNat _).symm, hnlink, hmode⟩
    show ((ei.e2di_nlink.toNat : ℕ) : ℤ) ≤ 32767
    omega
  · intro huse _
    obtain ⟨hnlink, -⟩ := of_decide_eq_true huse
    have hpos : ei.e2di_nlink.toNat ≠ 0 := fun h0 => hnlink (BitVec.eq_of_toNat_eq h0)
    show (1 : ℤ) ≤ ((ei.e2di_nlink.toNat : ℕ) : ℤ)
    omega
  · intro huse
    have hnot := of_decide_eq_false huse
    by_cases hnlink : ei.e2di_nlink = 0
    · exact .inl hnlink
    · exact .inr (not_not.1 fun hmode => hnot ⟨hnlink, hmode⟩)

end Invariant

/-! ### The last close frees only what has no links -/

/-- A last close now would truncate the inode and free it. -/
def Frees (s : SlotSys) : Prop := ∃ ip, s.core = some ip ∧ ip.Unlinked

/-- The operations that remove a name. -/
def SlotOp.Removes : SlotOp → Prop
  | .remove | .rmdir _ _ | .replaceDir _ _ => True
  | _ => False

section Freed

variable {env : SlotEnv} {s : SlotSys}

/-- An inode that a last close would free is a file without links. -/
theorem SlotInv.frees (h : SlotInv env s) (hfrees : Frees s) : s.inUse = true ∧ s.links ≤ 0 := by
  obtain ⟨ip, hcore, hmode, hneg⟩ := hfrees
  have ho := h.opened ip hcore
  cases huse : s.inUse
  · exact absurd (ho.free huse).1 hmode
  · obtain ⟨hle, hnlink, -⟩ := ho.links huse
    refine ⟨rfl, nonpos_of_toInt hle ?_⟩
    rwa [← hnlink]

/-- The file is there, and has a link. -/
def Linked (s : SlotSys) : Prop := s.inUse = true ∧ 1 ≤ s.links

/-- An operation that loses no link keeps the file. -/
theorem onWritable_linked {f : InCore → InCore × ℤ} (hf : ∀ r, 0 ≤ (f r).2) (h : Linked s) :
    Linked (s.onWritable env f) := by
  unfold SlotSys.onWritable
  cases env.fs.ronly
  case true => exact h
  show Linked (s.onOpen f)
  unfold SlotSys.onOpen
  rcases s.core with _ | ip
  · exact h
  cases s.idle
  · refine ⟨h.1, ?_⟩
    have hgain := hf ⟨ip, s.disk, ip⟩
    have hpos := h.2
    show 1 ≤ s.links + _
    omega
  · exact h

theorem linkCount_gain (env : SlotEnv) (ctx : OpCtx) (entered : Bool) (r : InCore) :
    0 ≤ (linkCount env ctx entered r).2 := by
  unfold linkCount
  split
  · exact le_rfl
  · split
    · exact le_rfl
    · cases entered
      · exact le_rfl
      · exact Int.one_nonneg

theorem renameCount_gain (env : SlotEnv) (ctx : OpCtx) (entered removed : Bool) (r : InCore) :
    0 ≤ (renameCount env ctx entered removed r).2 := by
  unfold renameCount
  split
  · exact le_rfl
  · split
    · exact le_rfl
    · cases entered
      · exact le_rfl
      · cases removed
        · exact Int.one_nonneg
        · exact le_rfl

theorem parentCount_gain (env : SlotEnv) (ctx : OpCtx) (entered : Bool) (r : InCore) :
    0 ≤ (parentCount env ctx entered r).2 := by
  unfold parentCount
  split
  · exact le_rfl
  · cases entered
    · exact le_rfl
    · exact Int.one_nonneg

/-- An operation that removes no name keeps the file. -/
theorem linked_step {op : SlotOp} (hop : ¬op.Removes) (hinv : SlotInv env s) (h : Linked s) :
    Linked (slotStep env op s) := by
  cases op with
  | lookup rand => exact h
  | content ctx steps => exact onWritable_linked (fun _ => le_rfl) h
  | link ctx entered => exact onWritable_linked (linkCount_gain env ctx entered) h
  | rename ctx entered removed =>
    exact onWritable_linked (renameCount_gain env ctx entered removed) h
  | parent ctx entered => exact onWritable_linked (parentCount_gain env ctx entered) h
  | remove => exact absurd trivial hop
  | rmdir ctx steps => exact absurd trivial hop
  | replaceDir ctx steps => exact absurd trivial hop
  | sync ctx wait =>
    show Linked (s.onCore fun r => (ext2SyncCallback (env.vnode ctx) wait ctx.now .ok r).2)
    unfold SlotSys.onCore
    cases s.core <;> exact h
  | close ctx steps =>
    rcases hcore : s.core with _ | ip
    · rwa [slotStep_close_none env ctx steps hcore]
    have hkeep : ¬ip.Unlinked := by
      intro hun
      have hneg := (hinv.frees ⟨ip, hcore, hun⟩).2
      have hpos := h.2
      omega
    rw [slotStep_close_some env ctx steps hcore]
    unfold SlotSys.onCore
    rw [hcore]
    exact ⟨by simp [h.1, hkeep], h.2⟩
  | evict ctx =>
    show Linked (if s.idle then _ else s)
    cases s.idle
    · exact h
    show Linked { s.onCore _ with core := none }
    unfold SlotSys.onCore
    cases s.core <;> exact h
  | create ctx rand rand' uid gid mode directory member named =>
    show Linked (if s.inUse ∨ env.fs.ronly then s else _)
    rw [if_pos (.inl h.1)]
    exact h
  | handle =>
    rcases hcore : s.core with _ | ip
    · rwa [slotStep_handle_none env (.inl hcore)]
    cases hopen : !s.idle && s.inUse
    · rwa [slotStep_handle_none env (.inr hopen)]
    · rw [slotStep_handle_some env hcore hopen, hcore]
      exact h

/-- **When only files without links are freed.**  In every run from a slot in use, a last close frees
the inode only when the links that the slot said it had are all gone, and in a run that removes no
name it never does, exactly when that count is at most 32767: `i_nlink` is a signed 16-bit number. -/
theorem close_frees_iff (env : SlotEnv) (ei : Ext2fsDinode) (hnlink : ei.e2di_nlink ≠ 0)
    (hmode : ei.e2di_mode ≠ 0) :
    (∀ s, Reach (slotStep env) (fun _ _ => True) (· = SlotSys.initial ei) s → Frees s →
        s.links ≤ 0) ∧
      (∀ s, Reach (slotStep env) (fun op _ => ¬op.Removes) (· = SlotSys.initial ei) s → ¬Frees s) ↔
    ei.e2di_nlink.toNat ≤ 32767 := by
  constructor
  · intro h
    by_contra hbig
    have hstart : Reach (slotStep env) (fun op _ => ¬op.Removes) (· = SlotSys.initial ei)
        (slotStep env (.lookup 0) (SlotSys.initial ei)) :=
      .call (SlotOp.lookup 0) (.start rfl) (fun h => h)
    refine h.2 _ hstart ⟨_, rfl, ?_, ?_⟩
    · show (vgetFill env.fs env.hasXtime 0 ei).i_mode ≠ 0
      rwa [vgetFill_mode, if_pos hnlink]
    · show (vgetFill env.fs env.hasXtime 0 ei).i_nlink.toInt ≤ 0
      rw [vgetFill_nlink, BitVec.toInt_eq_toNat_cond]
      have hlt := ei.e2di_nlink.isLt
      split <;> omega
  · intro hle
    have hinv : ∀ s, s = SlotSys.initial ei → SlotInv env s := by
      intro s hs
      rw [hs]
      exact slotInv_initial hle
    have hlinked : ∀ s, s = SlotSys.initial ei → SlotInv env s ∧ Linked s := by
      intro s hs
      have hpos : ei.e2di_nlink.toNat ≠ 0 := fun h0 => hnlink (BitVec.eq_of_toNat_eq h0)
      refine ⟨hinv s hs, ?_⟩
      rw [hs]
      refine ⟨decide_eq_true ⟨hnlink, hmode⟩, ?_⟩
      show (1 : ℤ) ≤ ((ei.e2di_nlink.toNat : ℕ) : ℤ)
      omega
    constructor
    · intro s hreach hfrees
      exact ((hreach.invariant hinv fun op s h _ => slotInv_step op s h).frees hfrees).2
    · intro s hreach hfrees
      obtain ⟨h, hl⟩ := hreach.invariant hlinked
        fun op s h hop => ⟨slotInv_step op s h.1, linked_step hop h.1 h.2⟩
      have hneg := (h.frees hfrees).2
      have hpos := hl.2
      omega

/-- The plain file's slot on the volume with 4 KiB blocks. -/
def slot4k : SlotEnv := ⟨volume4k, true, false, 12, 128, 8192⟩

/-- The plain file is freed only when its link is gone. -/
theorem close_plain :
    (∀ s, Reach (slotStep slot4k) (fun _ _ => True) (· = SlotSys.initial plainDinode) s → Frees s →
        s.links ≤ 0) ∧
      (∀ s, Reach (slotStep slot4k) (fun op _ => ¬op.Removes) (· = SlotSys.initial plainDinode) s →
        ¬Frees s) :=
  (close_frees_iff slot4k plainDinode (by decide) (by decide)).2 (by decide)

/-- A file with 32768 links is loaded and closed, and that frees it. -/
theorem close_frees_linked :
    let s := slotStep slot4k (.lookup 0) (SlotSys.initial { plainDinode with e2di_nlink := 32768 })
    Reach (slotStep slot4k) (fun op _ => ¬op.Removes)
        (· = SlotSys.initial { plainDinode with e2di_nlink := 32768 }) s ∧
      Frees s ∧ s.links = 32768 ∧ (slotStep slot4k (.close ⟨false, 0, 0⟩ []) s).inUse = false := by
  refine ⟨.call (SlotOp.lookup 0) (.start rfl) (fun h => h), ⟨_, rfl, ?_, ?_⟩, rfl, ?_⟩
  · decide +kernel
  · decide +kernel
  · decide +kernel

end Freed

/-! ### File handles -/

/-- Every handle is accepted while its file is there and has a link, and stale once it is freed. -/
def KeepsHandles (env : SlotEnv) (s : SlotSys) : Prop :=
  ∀ h ∈ s.handles,
    (h.life = s.life → s.inUse = true → 1 ≤ s.links → ∀ rand, ext2Fhtovp env rand h s = none) ∧
    (h.life < s.life ∨ s.inUse = false → ∀ rand, ext2Fhtovp env rand h s = some .estale)

/-- The generation number does not come to 0: an allocation finds neither 0 nor the largest one, and a
number drawn for an inode without one is not the largest. -/
def GenSafe (env : SlotEnv) (op : SlotOp) (s : SlotSys) : Prop :=
  match op with
  | .lookup rand => s.core = none → s.disk.e2di_gen = 0 → rand + 1 ≠ 0
  | .create _ rand _ _ _ _ _ _ _ =>
      s.inUse = false → env.fs.ronly = false →
        (s.get env rand).i_gen ≠ 0 ∧ (s.get env rand).i_gen + 1 ≠ 0
  | _ => True

/-- Every handle is as many generations behind as there were allocations since. -/
def GenOk (s : SlotSys) (gen : BitVec 32) : Prop :=
  ∀ h ∈ s.handles, h.life ≤ s.life ∧ h.ext2fid_gen.toNat + (s.life - h.life) = gen.toNat

/-- The invariant of the generation number. -/
structure GenInv (env : SlotEnv) (s : SlotSys) : Prop where
  ino : ∀ h ∈ s.handles, h.ext2fid_ino = env.ino
  opened : ∀ ip, s.core = some ip → ip.i_gen ≠ 0 ∧ GenOk s ip.i_gen
  closed : s.core = none → s.handles ≠ [] → s.disk.e2di_gen ≠ 0 ∧ GenOk s s.disk.e2di_gen
  /-- the generation of a free inode is on disk, or will be -/
  free : ∀ ip, s.core = some ip → s.handles ≠ [] → s.inUse = false →
    ip.Lazy ∨ s.disk.e2di_gen = ip.i_gen
  ronly : env.fs.ronly = true →
    s.disk.e2di_gen ≠ 0 ∧ ∀ ip, s.core = some ip → ip.i_gen = s.disk.e2di_gen

section Handles

variable {env : SlotEnv} {s : SlotSys}

/-- An operation on the inode in core that keeps its generation. -/
theorem GenInv.moves {ip : CoreInode} {r' : InCore} {links : ℤ} {idle : Bool} (h : GenInv env s)
    (hcore : s.core = some ip) (hm : Moves ⟨ip, s.disk, ip⟩ r')
    (hro : env.fs.ronly = true → r'.disk = s.disk) :
    GenInv env { s with core := some r'.ip, disk := r'.disk, links, idle } where
  ino := h.ino
  opened ip' hip' := by
    obtain ⟨hne, hok⟩ := h.opened ip hcore
    cases hip'
    have hgen : r'.ip.i_gen = ip.i_gen := hm.gen
    rw [hgen]
    exact ⟨hne, hok⟩
  closed h' := by cases h'
  free ip' hip' hsome huse := by
    cases hip'
    rcases hm.disk with ⟨hdisk, hlazy⟩ | ⟨-, hput⟩
    · rcases h.free ip hcore hsome huse with hl | hd
      · exact .inl (hlazy hl)
      · right
        show r'.disk.e2di_gen = r'.ip.i_gen
        rw [hdisk, hm.gen]
        exact hd
    · exact .inr hput
  ronly hr := by
    obtain ⟨hne, hall⟩ := h.ronly hr
    show r'.disk.e2di_gen ≠ 0 ∧ ∀ ip', some r'.ip = some ip' → ip'.i_gen = r'.disk.e2di_gen
    rw [hro hr]
    refine ⟨hne, fun ip' hip' => ?_⟩
    cases hip'
    exact hm.gen.trans (hall ip hcore)

theorem onWritable_gen {f : InCore → InCore × ℤ} (hf : ∀ r, CountSpec r (f r)) (h : GenInv env s) :
    GenInv env (s.onWritable env f) := by
  unfold SlotSys.onWritable
  cases hro : env.fs.ronly
  case true => exact h
  show GenInv env (s.onOpen f)
  unfold SlotSys.onOpen
  rcases hcore : s.core with _ | ip
  · exact h
  cases s.idle
  · refine h.moves hcore (hf ⟨ip, s.disk, ip⟩).moves (fun h' => ?_)
    rw [hro] at h'
    cases h'
  · exact h

/-- The last close keeps the generation. -/
theorem close_gen (ctx : OpCtx) (steps : List ContentStep) (hinv : SlotInv env s) (h : GenInv env s) :
    GenInv env (slotStep env (.close ctx steps) s) := by
  rcases hcore : s.core with _ | ip
  · rwa [slotStep_close_none env ctx steps hcore]
  rw [slotStep_close_some env ctx steps hcore]
  unfold SlotSys.onCore
  rw [hcore]
  by_cases hun : ip.Unlinked
  · have hrw : env.fs.ronly = false := by
      cases hro : env.fs.ronly
      · rfl
      · have huse := (hinv.frees ⟨ip, hcore, hun⟩).1
        have hpos := ((hinv.opened ip hcore).same huse hro).1
        have hneg := (hinv.frees ⟨ip, hcore, hun⟩).2
        omega
    obtain ⟨-, hgen, hlast⟩ := inactive_unlinked (env.vnode ctx) ctx.now ⟨ip, s.disk, ip⟩
      (contentSteps_keepsLinks env ctx _ steps) hun hrw
    obtain ⟨hne, hok⟩ := h.opened ip hcore
    refine ⟨h.ino, ?_, (fun h' => by cases h'), ?_, fun hr => ?_⟩
    · intro ip' hip'
      cases hip'
      rw [hgen]
      exact ⟨hne, hok⟩
    · intro ip' hip' _ _
      cases hip'
      rcases hlast with hlazy | ⟨-, hput⟩
      · exact .inl hlazy
      · exact .inr (hput.trans hgen.symm)
    · rw [hrw] at hr
      cases hr
  · obtain ⟨hq, hro, -⟩ :=
      inactive_linked (env.vnode ctx) ctx.now ⟨ip, s.disk, ip⟩ (contentSteps env ctx steps) hun
    have hkeep : (s.inUse && !decide ip.Unlinked) = s.inUse := by simp [hun]
    rw [hkeep]
    exact h.moves hcore hq.moves hro

/-- The eviction leaves the generation on disk. -/
theorem evict_gen (ctx : OpCtx) (hinv : SlotInv env s) (h : GenInv env s) :
    GenInv env (slotStep env (.evict ctx) s) := by
  show GenInv env (if s.idle then _ else s)
  cases hidle : s.idle
  case false => exact h
  show GenInv env { s.onCore _ with core := none }
  unfold SlotSys.onCore
  rcases hcore : s.core with _ | ip
  · exact ⟨h.ino, (fun _ h' => by cases h'), fun _ => h.closed hcore, (fun _ h' => by cases h'),
      fun hr => ⟨(h.ronly hr).1, fun _ h' => by cases h'⟩⟩
  obtain ⟨hro, hstay, hwrite⟩ := reclaim_spec (env.vnode ctx) ctx.now ⟨ip, s.disk, ip⟩
  obtain ⟨hne, hok⟩ := h.opened ip hcore
  refine ⟨h.ino, (fun _ h' => by cases h'), ?_, (fun _ h' => by cases h'), ?_⟩
  · intro _ hsome
    have hgen : (ext2Reclaim (env.vnode ctx) ctx.now .ok ⟨ip, s.disk, ip⟩).2.disk.e2di_gen = ip.i_gen := by
      cases hr : env.fs.ronly
      case true =>
        rw [hro hr]
        exact ((h.ronly hr).2 ip hcore).symm
      cases huse : s.inUse
      · by_cases hlazy : ip.Lazy
        · exact (hwrite hr hlazy).gen
        · rw [hstay hlazy]
          exact (h.free ip hcore hsome huse).resolve_left hlazy
      · exact (reclaim_agrees ctx (hinv.opened ip hcore) huse hidle hr).gen
    show (ext2Reclaim (env.vnode ctx) ctx.now .ok ⟨ip, s.disk, ip⟩).2.disk.e2di_gen ≠ 0 ∧ GenOk _ _
    rw [hgen]
    exact ⟨hne, hok⟩
  · intro hr
    refine ⟨?_, fun _ h' => by cases h'⟩
    show (ext2Reclaim (env.vnode ctx) ctx.now .ok ⟨ip, s.disk, ip⟩).2.disk.e2di_gen ≠ 0
    rw [hro hr]
    exact (h.ronly hr).1

/-- A lookup keeps the generation that is on disk, or gives one. -/
theorem lookup_gen {rand : BitVec 32} (hsafe : GenSafe env (.lookup rand) s) (h : GenInv env s) :
    GenInv env (slotStep env (.lookup rand) s) := by
  show GenInv env { s with core := some (s.get env rand), idle := false }
  unfold SlotSys.get
  rcases hcore : s.core with _ | ip
  · have hgen := vgetFill_gen env.fs env.hasXtime rand s.disk
    refine ⟨h.ino, ?_, (fun h' => by cases h'), ?_, ?_⟩
    · intro ip' hip'
      cases hip'
      show (vgetFill env.fs env.hasXtime rand s.disk).i_gen ≠ 0 ∧
        GenOk s (vgetFill env.fs env.hasXtime rand s.disk).i_gen
      rw [hgen]
      by_cases h0 : s.disk.e2di_gen = 0
      · rw [if_pos h0]
        refine ⟨hsafe hcore h0, fun h' hmem => ?_⟩
        have hsome : s.handles ≠ [] := List.ne_nil_of_mem hmem
        exact absurd h0 (h.closed hcore hsome).1
      · rw [if_neg h0]
        refine ⟨h0, fun h' hmem => ?_⟩
        exact (h.closed hcore (List.ne_nil_of_mem hmem)).2 h' hmem
    · intro ip' hip' hsome _
      cases hip'
      right
      show s.disk.e2di_gen = (vgetFill env.fs env.hasXtime rand s.disk).i_gen
      rw [hgen, if_neg (h.closed hcore hsome).1]
    · intro hr
      refine ⟨(h.ronly hr).1, fun ip' hip' => ?_⟩
      cases hip'
      show (vgetFill env.fs env.hasXtime rand s.disk).i_gen = s.disk.e2di_gen
      rw [hgen, if_neg (h.ronly hr).1]
  · exact ⟨h.ino, fun ip' hip' => h.opened ip' (hcore.trans hip'), (fun h' => by cases h'),
      fun ip' hip' => h.free ip' (hcore.trans hip'),
      fun hr => ⟨(h.ronly hr).1, fun ip' hip' => (h.ronly hr).2 ip' (hcore.trans hip')⟩⟩

/-- The generation that an allocation starts from. -/
theorem GenInv.get (h : GenInv env s) (rand : BitVec 32) : GenOk s (s.get env rand).i_gen := by
  unfold SlotSys.get
  rcases hcore : s.core with _ | ip
  · intro h' hmem
    obtain ⟨hne, hok⟩ := h.closed hcore (List.ne_nil_of_mem hmem)
    rw [Option.getD_none, vgetFill_gen, if_neg hne]
    exact hok h' hmem
  · exact (h.opened ip hcore).2

/-- Where the sum is not 0, the next generation is one more. -/
theorem nextGen_toNat {rand gen : BitVec 32} (h : gen ≠ 0) (h' : gen + 1 ≠ 0) :
    nextGen rand gen ≠ 0 ∧ (nextGen rand gen).toNat = gen.toNat + 1 := by
  have heq : nextGen rand gen = gen + 1 := if_neg (not_or.2 ⟨h, h'⟩)
  rw [heq]
  refine ⟨h', ?_⟩
  have hne : (gen + 1).toNat ≠ 0 := fun h0 => h' (BitVec.eq_of_toNat_eq h0)
  rw [BitVec.toNat_add] at hne ⊢
  have hlt := gen.isLt
  show (gen.toNat + 1) % 2 ^ 32 = _
  change (gen.toNat + 1) % 2 ^ 32 ≠ 0 at hne
  omega

/-- A creation moves the generation on. -/
theorem create_gen {ctx : OpCtx} {rand rand' uid gid : BitVec 32} {mode : BitVec 16}
    {directory member named : Bool}
    (hsafe : GenSafe env (.create ctx rand rand' uid gid mode directory member named) s)
    (h : GenInv env s) :
    GenInv env (slotStep env (.create ctx rand rand' uid gid mode directory member named) s) := by
  show GenInv env (if s.inUse ∨ env.fs.ronly then s else _)
  by_cases hguard : s.inUse ∨ env.fs.ronly
  · rw [if_pos hguard]
    exact h
  rw [if_neg hguard]
  have hfree : s.inUse = false := Bool.eq_false_iff.2 fun h' => hguard (.inl h')
  have hrw : env.fs.ronly = false := Bool.eq_false_iff.2 fun h' => hguard (.inr h')
  obtain ⟨hne, hwrap⟩ := hsafe hfree hrw
  obtain ⟨-, -, hgen, -⟩ :=
    @createInode_spec env ctx rand rand' uid gid mode directory member named s
  obtain ⟨hne', hsucc⟩ := @nextGen_toNat rand' _ hne hwrap
  refine ⟨h.ino, ?_, (fun h' => by cases h'), (fun _ _ _ h' => by cases h'), fun hr => ?_⟩
  · intro ip' hip'
    cases hip'
    rw [hgen]
    refine ⟨hne', fun h' hmem => ?_⟩
    obtain ⟨hlife, hcount⟩ := h.get rand h' hmem
    rw [hsucc]
    refine ⟨le_trans hlife (Nat.le_succ _), ?_⟩
    show h'.ext2fid_gen.toNat + (s.life + 1 - h'.life) = _
    omega
  · rw [hrw] at hr
    cases hr

/-- A new handle has the generation of its file. -/
theorem handle_gen (h : GenInv env s) : GenInv env (slotStep env .handle s) := by
  rcases hcore : s.core with _ | ip
  · rwa [slotStep_handle_none env (.inl hcore)]
  cases hopen : !s.idle && s.inUse
  · rwa [slotStep_handle_none env (.inr hopen)]
  rw [slotStep_handle_some env hcore hopen, hcore]
  obtain ⟨-, huse⟩ := Bool.and_eq_true_iff.1 hopen
  obtain ⟨hne, hok⟩ := h.opened ip hcore
  refine ⟨?_, ?_, (fun h' => by cases h'), ?_, ?_⟩
  · intro h' hmem
    rcases List.mem_cons.1 hmem with rfl | hmem
    · rfl
    · exact h.ino h' hmem
  · intro ip' hip'
    cases hip'
    refine ⟨hne, fun h' hmem => ?_⟩
    rcases List.mem_cons.1 hmem with rfl | hmem
    · refine ⟨le_rfl, ?_⟩
      show ip.i_gen.toNat + (s.life - s.life) = ip.i_gen.toNat
      omega
    · exact hok h' hmem
  · intro _ _ _ hfree
    exact absurd (huse.symm.trans hfree) Bool.noConfusion
  · intro hr
    refine ⟨(h.ronly hr).1, fun ip' hip' => ?_⟩
    cases hip'
    exact (h.ronly hr).2 ip hcore

/-- The two invariants. -/
def SlotGenInv (env : SlotEnv) (s : SlotSys) : Prop := SlotInv env s ∧ GenInv env s

/-- **Every operation that does not wrap the generation keeps both invariants.** -/
theorem slotGenInv_step {op : SlotOp} (hsafe : GenSafe env op s) (h : SlotGenInv env s) :
    SlotGenInv env (slotStep env op s) := by
  obtain ⟨hinv, h⟩ := h
  refine ⟨slotInv_step op s hinv, ?_⟩
  cases op with
  | lookup rand => exact lookup_gen hsafe h
  | content ctx steps => exact onWritable_gen (fun r => (contentSteps_keepsLinks env ctx r steps).count) h
  | link ctx entered => exact onWritable_gen (fun r => linkCount_spec env ctx r entered) h
  | rename ctx entered removed =>
    exact onWritable_gen (fun r => renameCount_spec env ctx r entered removed) h
  | parent ctx entered => exact onWritable_gen (fun r => parentCount_spec env ctx r entered) h
  | remove => exact onWritable_gen removeCount_spec h
  | rmdir ctx steps => exact onWritable_gen (fun r => rmdirCount_spec env ctx r steps) h
  | replaceDir ctx steps => exact onWritable_gen (fun r => replaceDirCount_spec env ctx r steps) h
  | sync ctx wait =>
    show GenInv env (s.onCore fun r => (ext2SyncCallback (env.vnode ctx) wait ctx.now .ok r).2)
    unfold SlotSys.onCore
    rcases hcore : s.core with _ | ip
    · exact h
    · exact h.moves hcore (syncCallback_keepsLinks ⟨ip, s.disk, ip⟩ _ _ _).moves
        (syncCallback_ronly (env.vnode ctx) ctx.now ⟨ip, s.disk, ip⟩ wait)
  | close ctx steps => exact close_gen ctx steps hinv h
  | evict ctx => exact evict_gen ctx hinv h
  | create ctx rand rand' uid gid mode directory member named => exact create_gen hsafe h
  | handle => exact handle_gen h

/-- What the invariants say about the test of `ext2_fhtovp`. -/
theorem keepsHandles_of_inv (hino : EXT2_ROOTINO ≤ env.ino ∧ env.ino ≤ env.gcount * env.ipg)
    (hinv : SlotInv env s) (hgen : GenInv env s) : KeepsHandles env s := by
  intro h hmem
  have hsome : s.handles ≠ [] := List.ne_nil_of_mem hmem
  have hrange : ¬(h.ext2fid_ino < EXT2_ROOTINO ∨ env.gcount * env.ipg < h.ext2fid_ino) := by
    rw [hgen.ino h hmem]
    exact not_or.2 ⟨BitVec.not_lt.2 hino.1, BitVec.not_lt.2 hino.2⟩
  constructor
  · intro hlife huse hpos rand
    obtain ⟨-, hcount⟩ := hgen.get rand h hmem
    have heq : (s.get env rand).i_gen = h.ext2fid_gen := by
      apply BitVec.eq_of_toNat_eq
      omega
    have hfile : (s.get env rand).i_mode ≠ 0 ∧ 0 < (s.get env rand).i_nlink.toInt := by
      unfold SlotSys.get
      rcases hcore : s.core with _ | ip
      · obtain ⟨hle, hnlink, hne, hmode⟩ := (hinv.closed hcore).links huse
        rw [Option.getD_none, vgetFill_mode, vgetFill_nlink, if_pos hne, hnlink,
          toInt_ofInt_of_pos hpos hle]
        exact ⟨hmode, by omega⟩
      · obtain ⟨hle, hnlink, hmode⟩ := (hinv.opened ip hcore).links huse
        rw [Option.getD_some, hnlink, toInt_ofInt_of_pos hpos hle]
        exact ⟨hmode, by omega⟩
    unfold ext2Fhtovp
    rw [if_neg hrange]
    apply if_neg
    rintro (h0 | hne | hneg)
    · exact hfile.1 h0
    · exact hne heq
    · exact absurd hneg (not_le.2 hfile.2)
  · intro hfreed rand
    unfold ext2Fhtovp
    rw [if_neg hrange]
    apply if_pos
    rcases hfreed with hold | hfree
    · right; left
      intro heq
      obtain ⟨-, hcount⟩ := hgen.get rand h hmem
      rw [heq] at hcount
      omega
    · left
      unfold SlotSys.get
      rcases hcore : s.core with _ | ip
      · rw [Option.getD_none, vgetFill_mode]
        rcases (hinv.closed hcore).free hfree with h0 | h0
        · rw [if_neg (not_not.2 h0)]
        · rw [h0, ite_self]
      · exact ((hinv.opened ip hcore).free hfree).1

/-- **File handles name their file.**  From a slot whose count is at most 32767, and whose generation
is there if the mount is read only, in every run whose allocations find a generation that can be
counted up, a handle is accepted while its file has a link and stale once the file is freed. -/
theorem handle_runs (env : SlotEnv) (ei : Ext2fsDinode)
    (hino : EXT2_ROOTINO ≤ env.ino ∧ env.ino ≤ env.gcount * env.ipg)
    (hnlink : ei.e2di_nlink.toNat ≤ 32767) (hronly : env.fs.ronly = true → ei.e2di_gen ≠ 0)
    {s : SlotSys} (h : Reach (slotStep env) (GenSafe env) (· = SlotSys.initial ei) s) :
    KeepsHandles env s := by
  have hstart : ∀ s, s = SlotSys.initial ei → SlotGenInv env s := by
    intro s hs
    rw [hs]
    refine ⟨slotInv_initial hnlink, ?_⟩
    exact ⟨(fun h' hmem => by cases hmem), (fun ip hip => by cases hip), (fun _ hsome => absurd rfl hsome),
      (fun ip hip => by cases hip), fun hr => ⟨hronly hr, fun ip hip => by cases hip⟩⟩
  obtain ⟨hinv, hgen⟩ := h.invariant hstart fun op s h hsafe => slotGenInv_step hsafe h
  exact keepsHandles_of_inv hino hinv hgen

/-- The plain file is opened, exported, removed and freed; its handle is stale then. -/
theorem handle_plain :
    KeepsHandles slot4k (slotStep slot4k (.close ⟨false, 0, 0⟩ []) (slotStep slot4k .remove
      (slotStep slot4k .handle (slotStep slot4k (.lookup 0) (SlotSys.initial plainDinode))))) :=
  handle_runs slot4k plainDinode (by decide) (by decide) (by decide)
    (.call (SlotOp.close ⟨false, 0, 0⟩ []) (.call SlotOp.remove (.call SlotOp.handle
      (.call (SlotOp.lookup 0) (.start rfl)
        (fun _ (h : plainDinode.e2di_gen = 0) => absurd h (by decide))) trivial) trivial) trivial)

/-- A file with 32768 links is opened and exported, and its handle is refused. -/
theorem handle_refused :
    let s := slotStep slot4k .handle
      (slotStep slot4k (.lookup 0) (SlotSys.initial { plainDinode with e2di_nlink := 32768 }))
    s.links = 32768 ∧ ¬KeepsHandles slot4k s := by
  refine ⟨rfl, fun h => ?_⟩
  have haccept := (h ⟨12, 9, 0⟩ (List.mem_cons_self ..)).1 rfl (by decide) (by decide) 0
  exact absurd haccept (by decide +kernel)

end Handles

end Ext2fs
