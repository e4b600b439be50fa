/-
Open files of all tasks (`alloc_fd`, `real_file` and the file calls in `cpu/syscall.cpp`, the table copy in
`task/fork.cpp`).

A File is a heap block. fork copies the pointers of the parent's table; close frees the block and clears the caller's
entry, and no other. `Fs` is the kernel of `Retux.Sched` with the File blocks: a run takes any scheduler events and file
calls of any tasks. What is outside comes with the event: the inode that the path leads to, the block the heap gives,
and what the driver's `read` and `readdir` return. `kfree` of a block that is no File is recorded in `freed` (ghost), and
a call that looks into one is none.

- `failed_unchanged`: a call that fails leaves files and tables as they were;
- `step_sound`: what a step keeps, with `Retux.Refs`;
- `no_dangling_iff`: in every run, all tables stay valid exactly if no task closes a File that another has open.
-/
import Mathlib.Tactic
import Retux.Lib.Pool
import Retux.Sys.Getdents
import Retux.Sys.Read
import Retux.Task.Fds

namespace Retux.Files

open Retux.Word Retux.Bytes Retux.Sys Retux.Sched Retux.Refs Retux.Run

/-! ## Model -/

def ENOENT : U64 := 2
def EBADF : U64 := 9
def EMFILE : U64 := 24

/-- of `vfs::Inode` -/
structure Inode where
  size : U64
  isDir : Bool

structure File where
  inode : Inode
  offset : U64

structure Fs where
  s : Sched.Sys
  /-- the blocks that are Files now, and what is in them -/
  files : List Ptr
  file : Ptr → File
  /-- passed to `kfree`, and not handed out since -/
  freed : List Ptr

/-- what `fill_stat` and `sys_fstat` write, of `struct stat` -/
structure Stat where
  nlink : U64
  mode : BitVec 32
  size : U64
  blksize : U64
  blocks : U64
deriving DecidableEq

namespace Fs

def kmalloc (x : Fs) (block : Ptr) (f : File) : Fs :=
  { x with files := block :: x.files, file := Function.update x.file block f, freed := x.freed.filter (· ≠ block) }

def kfree (x : Fs) (f : Ptr) : Fs := { x with files := x.files.erase f, freed := f :: x.freed }

/-- the File at f -/
def get (x : Fs) (f : Ptr) : Option File := if f ∈ x.files then some (x.file f) else none

def setOffset (x : Fs) (f : Ptr) (offset : U64) : Fs :=
  { x with file := Function.update x.file f { x.file f with offset := offset } }

/-- the running task's table -/
def setFds (x : Fs) (fds : Fin MAX_FDS → Option Ptr) : Fs :=
  { x with s := x.s.setTask x.s.current { x.s.tb.task x.s.current with fds := fds } }

end Fs

/-- `vfs::open`, with what the path leads to and the block `kmalloc` gives; 0 is null -/
def vfsOpen (x : Fs) (target : Option Inode) (block : Ptr) : Option (Ptr × Fs) :=
  target.bind fun inode => if block = 0 then none else some (block, x.kmalloc block ⟨inode, 0⟩)

/-- the first free descriptor -/
def allocFd (fds : Fin MAX_FDS → Option Ptr) : Option (Fin MAX_FDS) :=
  (List.finRange MAX_FDS).find? fun i => 3 ≤ i.val ∧ fds i = none

def realFile (fds : Fin MAX_FDS → Option Ptr) (fd : U64) : Option Ptr :=
  if h : 3 ≤ fd.toNat ∧ fd.toNat < MAX_FDS then fds ⟨fd.toNat, h.2⟩ else none

def sysOpenat (x : Fs) (self : Task) (target : Option Inode) (block : Ptr) : U64 × Fs :=
  match vfsOpen x target block with
  | none => (-ENOENT, x)
  | some (f, x) =>
    match allocFd self.fds with
    | none => (-EMFILE, x.kfree f)
    | some i => (BitVec.ofNat 64 i.val, x.setFds (Function.update self.fds i (some f)))

def sysClose (x : Fs) (self : Task) (fd : U64) : U64 × Fs :=
  match realFile self.fds fd with
  | none => (-EBADF, x)
  | some f => (0, (x.kfree f).setFds fun i => if i.val = fd.toNat then none else self.fds i)

/-- n is what `ops->read` returns; a read of fd 0 is `Retux.Stdin`, and works on no File -/
def sysRead (x : Fs) (self : Task) (fd n : U64) : Option (U64 × Fs) :=
  if fd = 0 then some (n, x)
  else if fd = 1 ∨ fd = 2 then some (-EBADF, x)
  else
    match realFile self.fds fd with
    | none => some (-EBADF, x)
    | some f => (x.get f).map fun file =>
      if n.toInt < 0 then (- Sys.EIO, x) else (n, x.setOffset f (file.offset + n))

def seekBase (file : File) (whence : U64) : Option U64 :=
  if whence = SEEK_SET then some 0
  else if whence = SEEK_CUR then some file.offset
  else if whence = SEEK_END then some file.inode.size
  else none

def sysLseek (x : Fs) (self : Task) (fd offset whence : U64) : Option (U64 × Fs) :=
  match realFile self.fds fd with
  | none => some (-EBADF, x)
  | some f => (x.get f).map fun file =>
    match seekBase file whence with
    | none => (-EINVAL, x)
    | some base =>
      let result := base + offset
      if result.toInt < 0 then (-EINVAL, x) else (result, x.setOffset f result)

def fillStat (size : U64) (isDir : Bool) : Stat :=
  { nlink := 1, mode := (if isDir then 0o040000 else 0o100000) ||| 0o644, size := size, blksize := 512
    blocks := (size + 511) / 512 }

/-- tty and serial -/
def charStat : Stat := { nlink := 1, mode := 0o020000 ||| 0o620, size := 0, blksize := 0, blocks := 0 }

def sysFstat (x : Fs) (self : Task) (fd : U64) : Option (U64 × Option Stat) :=
  if fd = 0 ∨ fd = 1 ∨ fd = 2 then some (0, some charStat)
  else
    match realFile self.fds fd with
    | none => some (-EBADF, none)
    | some f => (x.get f).map fun file => (0, some (fillStat file.inode.size file.inode.isDir))

/-- with the driver's `readdir`, and the user's buffer -/
def sysGetdents64 (x : Fs) (self : Task) (fd : U64) (readdir : ℕ → ℕ → Option (List U8)) (q : Getdents.Request) :
    Option (U64 × Fs) :=
  match realFile self.fds fd with
  | none => some (-EBADF, x)
  | some f => (x.get f).bind fun file =>
    (Getdents.sysGetdents64 file.inode.isDir readdir file.offset q.count q.out q.vfsBuf).map fun r =>
      (r.1, x.setOffset f r.2.1)

/-- `sys_stat`, `sys_access`, `sys_readlink`, `elf::load`: a File that gets into no table, and is freed by the caller -/
def lookup (x : Fs) (target : Option Inode) (block : Ptr) : Fs :=
  match vfsOpen x target block with
  | none => x
  | some (f, x) => x.kfree f

inductive Event where
  | sched (e : Sched.Event)
  | openat (target : Option Inode) (block : Ptr)
  | close (fd : U64)
  | read (fd n : U64)
  | lseek (fd offset whence : U64)
  | fstat (fd : U64)
  | getdents64 (fd : U64) (readdir : ℕ → ℕ → Option (List U8)) (q : Getdents.Request)
  | lookup (target : Option Inode) (block : Ptr)

/-- a new File is a block that is none yet -/
def Event.fresh (x : Fs) : Event → Bool
  | .openat _ block => block ∉ x.files
  | _ => true

/-- the running task's call: what it returns, and the state after it -/
def call (x : Fs) (self : Task) : Event → Option (U64 × Fs)
  | .sched _ => none
  | .openat target block => some (sysOpenat x self target block)
  | .close fd => some (sysClose x self fd)
  | .read fd n => sysRead x self fd n
  | .lseek fd offset whence => sysLseek x self fd offset whence
  | .fstat fd => (sysFstat x self fd).map fun r => (r.1, x)
  | .getdents64 fd readdir q => sysGetdents64 x self fd readdir q
  | .lookup _ _ => none

/-- system calls come from a Linux task, in its own code -/
def ready (x : Fs) (self : Task) : Bool := !x.s.scheduling && x.s.cont x.s.current == .own && self.cr3 ≠ 0

/-- **One event.** -/
def step (x : Fs) : Event → Option Fs
  | .sched e => (Sched.step x.s e).map fun s => { x with s := s }
  | .lookup target block => if block ∈ x.files then none else some (lookup x target block)
  | e => (x.s.tb.get x.s.current).bind fun self =>
    if ready x self && e.fresh x then (call x self e).map Prod.snd else none

/-- nothing is open -/
def init (boot idle : Ptr) (idleStackTop : U64) (m : Vmm.Machine) (cpu : Cpu) : Fs :=
  { s := Sched.init boot idle idleStackTop m cpu, files := [], file := fun _ => ⟨⟨0, false⟩, 0⟩, freed := [] }

/-- a task that has not exited -/
def Live (s : Sched.Sys) (q : Ptr) : Prop := q ∈ s.tb.live ∧ (s.tb.task q).state ≠ .Dead

instance (s : Sched.Sys) (q : Ptr) : Decidable (Live s q) := inferInstanceAs (Decidable (_ ∧ _))

/-- **No dangling descriptors.** -/
structure NoDangling (x : Fs) : Prop where
  /-- every entry of every live task points to a File that is allocated -/
  valid : ∀ q, Live x.s q → ∀ i f, (x.s.tb.task q).fds i = some f → f ∈ x.files
  /-- and no File was freed twice -/
  once : x.freed.Nodup

/-- a close is of a File that no other live task has in its table -/
def Unshared (x : Fs) : Event → Prop
  | .close fd => ∀ f, realFile (x.s.tb.task x.s.current).fds fd = some f →
    ∀ q, q ≠ x.s.current → Live x.s q → ∀ i, (x.s.tb.task q).fds i ≠ some f
  | _ => True

/-! ## Files as cells -/

/-- the tables of the live tasks, and the Files -/
def Fs.pool (x : Fs) : Pool Ptr (Fin MAX_FDS) Ptr :=
  { live := Live x.s, ref := fun q => (x.s.tb.task q).fds, cells := x.files, freed := x.freed }

structure Inv (x : Fs) : Prop where
  queue : ∃ l, Queue x.s.abs l
  sound : Sound x.pool

section Steps

variable {x x' : Fs} {self : Task} {fds g : Fin MAX_FDS → Option Ptr} {fd r : U64} {f block : Ptr} {i : Fin MAX_FDS}
  {v : Option Ptr} {e : Event} {target : Option Inode}

theorem safe_iff : Safe x.pool ↔ NoDangling x :=
  ⟨fun h => ⟨fun _ hq _ _ hf => h.valid hq hf, h.once⟩, fun h => ⟨fun hq hf => h.valid _ hq _ _ hf, h.once⟩⟩

/-- the descriptor of an open file -/
theorem realFile_some (h : realFile fds fd = some f) : ∃ i : Fin MAX_FDS, fds i = some f ∧
    (fun j : Fin MAX_FDS => if j.val = fd.toNat then none else fds j) = Function.update fds i none := by
  unfold realFile at h
  split_ifs at h with hfd
  refine ⟨⟨fd.toNat, hfd.2⟩, h, ?_⟩
  funext j
  rw [Function.update_apply]
  exact if_congr ⟨fun he => Fin.ext he, fun he => congrArg Fin.val he⟩ rfl rfl

theorem allocFd_none (h : allocFd fds = some i) : fds i = none := by
  have hp := List.find?_some h
  simp only [decide_eq_true_eq] at hp
  exact hp.2

theorem setFds_live (q : Ptr) : Live (x.setFds g).s q ↔ Live x.s q := by
  unfold Live
  refine and_congr Iff.rfl (not_congr ?_)
  have hstate : ((x.setFds g).s.tb.task q).state = (x.s.tb.task q).state := by
    refine set_keep Task.state ?_ q
    rfl
  rw [hstate]

/-- one entry of the running task's table -/
theorem setFds_pool : (x.setFds (Function.update (x.s.tb.task x.s.current).fds i v)).pool =
    x.pool.point x.s.current i v := by
  have hlive : Live (x.setFds (Function.update (x.s.tb.task x.s.current).fds i v)).s = Live x.s :=
    funext fun q => propext (setFds_live q)
  have href : (fun q => ((x.setFds (Function.update (x.s.tb.task x.s.current).fds i v)).s.tb.task q).fds) =
      (x.pool.point x.s.current i v).ref := by
    funext q
    show ((x.s.tb.set x.s.current _).task q).fds = (x.pool.point x.s.current i v).ref q
    by_cases hq : q = x.s.current
    · rw [hq, set_self]
      exact (Function.update_self x.s.current _ x.pool.ref).symm
    · rw [set_other hq]
      exact (point_other (P := x.pool) (i := i) (v := v) hq).symm
  show Pool.mk _ _ _ _ = Pool.mk _ _ _ _
  rw [hlive, href]
  rfl

theorem setFds_queue {l : List Ptr} (hs : x.s.scheduling = false) (h : Queue x.s.abs l) :
    ∃ l', Queue (x.setFds g).s.abs l' := by
  have hm : Move x.s.abs .touch (x.setFds g).s.abs := by
    refine touch_move (s := x.s) (t := { x.s.tb.task x.s.current with fds := g }) (c := x.s.cont x.s.current) hs
      ⟨rfl, rfl, rfl, rfl, rfl⟩ (Or.inl ⟨rfl, rfl⟩) (Or.inl ⟨rfl, rfl⟩) (Or.inl rfl) ?_
    rw [setCont_self]
    rfl
  exact hm.queue h

theorem vfsOpen_some {x1 : Fs} (h : vfsOpen x target block = some (f, x1)) :
    f = block ∧ ∃ inode, x1 = x.kmalloc block ⟨inode, 0⟩ := by
  obtain ⟨inode, -, h⟩ := Option.bind_eq_some_iff.1 h
  split_ifs at h
  cases h
  exact ⟨rfl, inode, rfl⟩

/-- handed out and given back -/
theorem spare_sound {file : File} (hs : Sound x.pool) (hb : block ∉ x.files) :
    Sound ((x.kmalloc block file).kfree block).pool :=
  (hs.alloc hb).release (List.mem_cons_self ..) (hs.unheld_fresh hb)

theorem lookup_sound (hs : Sound x.pool) (hb : block ∉ x.files) : Sound (lookup x target block).pool := by
  unfold lookup
  cases hv : vfsOpen x target block with
  | none => exact hs
  | some y =>
    obtain ⟨rfl, inode, heq⟩ := vfsOpen_some (show vfsOpen x target block = some (y.1, y.2) from hv)
    show Sound (y.2.kfree y.1).pool
    rw [heq]
    exact spare_sound hs hb

theorem lookup_s : (lookup x target block).s = x.s := by
  unfold lookup
  cases hv : vfsOpen x target block with
  | none => rfl
  | some y =>
    obtain ⟨f, x1⟩ := y
    obtain ⟨rfl, inode, rfl⟩ := vfsOpen_some hv
    rfl

theorem openat_sound (hs : Sound x.pool) (hl : Live x.s x.s.current) (hb : block ∉ x.files) :
    Sound (sysOpenat x (x.s.tb.task x.s.current) target block).2.pool := by
  unfold sysOpenat
  cases hv : vfsOpen x target block with
  | none => exact hs
  | some y =>
    obtain ⟨f, x1⟩ := y
    obtain ⟨rfl, inode, rfl⟩ := vfsOpen_some hv
    cases ha : allocFd (x.s.tb.task x.s.current).fds with
    | none =>
      exact spare_sound hs hb
    | some i =>
      have hpool := setFds_pool (x := x.kmalloc f ⟨inode, 0⟩) (i := i) (v := some f)
      refine hpool ▸ Sound.point (hs.alloc hb) (List.mem_cons_self ..) fun j => ?_
      exact hs.unheld_fresh hb x.s.current j hl

/-- what a close does to the cells -/
theorem close_pool (hf : realFile (x.s.tb.task x.s.current).fds fd = some f) :
    ∃ i, (x.s.tb.task x.s.current).fds i = some f ∧
      (sysClose x (x.s.tb.task x.s.current) fd).2.pool = (x.pool.point x.s.current i none).release f := by
  obtain ⟨i, hi, hupd⟩ := realFile_some hf
  refine ⟨i, hi, ?_⟩
  unfold sysClose
  simp only [hf, hupd]
  exact setFds_pool (x := x.kfree f)

theorem close_sound (hs : Sound x.pool) (hl : Live x.s x.s.current) (hu : Unshared x (.close fd)) :
    Sound (sysClose x (x.s.tb.task x.s.current) fd).2.pool := by
  cases hf : realFile (x.s.tb.task x.s.current).fds fd with
  | none =>
    unfold sysClose
    simp only [hf]
    exact hs
  | some f =>
    obtain ⟨i, hi, hpool⟩ := close_pool hf
    rw [hpool]
    exact hs.clear.release (hs.valid hl hi) (hs.unheld hl hi fun q hq hql j => hu f hf q hq hql j)

/-- **A shared close.** Another live task is left with a File that is gone. -/
theorem close_dangling (hs : Sound x.pool) (hu : ¬ Unshared x (.close fd)) :
    ¬ NoDangling (sysClose x (x.s.tb.task x.s.current) fd).2 := by
  unfold Unshared at hu
  push Not at hu
  obtain ⟨f, hf, q, hq, hql, j, hj⟩ := hu
  obtain ⟨i, hi, hpool⟩ := close_pool hf
  rw [← safe_iff, hpool]
  refine not_safe_release hs.nodup (h := q) (i := j) hql ?_
  rw [point_other hq]
  exact hj

/-- the calls that change tables -/
def Event.edits : Event → Bool
  | .openat _ _ | .close _ => true
  | _ => false

/-- the same tables and Files, but for their offsets -/
def SameFiles (x x' : Fs) : Prop := x'.s = x.s ∧ x'.files = x.files ∧ x'.freed = x.freed

theorem SameFiles.refl : SameFiles x x := ⟨rfl, rfl, rfl⟩

theorem setOffset_same {offset : U64} : SameFiles x (x.setOffset f offset) := ⟨rfl, rfl, rfl⟩

theorem SameFiles.pool (h : SameFiles x x') : x'.pool = x.pool := by
  obtain ⟨h1, h2, h3⟩ := h
  unfold Fs.pool
  rw [h1, h2, h3]

theorem read_same {n : U64} (h : sysRead x self fd n = some (r, x')) : SameFiles x x' := by
  unfold sysRead at h
  by_cases h0 : fd = 0
  · rw [if_pos h0] at h
    cases h
    exact SameFiles.refl
  · rw [if_neg h0] at h
    by_cases h12 : fd = 1 ∨ fd = 2
    · rw [if_pos h12] at h
      cases h
      exact SameFiles.refl
    · rw [if_neg h12] at h
      cases hf : realFile self.fds fd with
      | none =>
        rw [hf] at h
        cases h
        exact SameFiles.refl
      | some f =>
        rw [hf] at h
        obtain ⟨file, -, h⟩ := Option.map_eq_some_iff.1 h
        split_ifs at h
        · cases h
          exact SameFiles.refl
        · cases h
          exact setOffset_same

theorem lseek_same {offset whence : U64} (h : sysLseek x self fd offset whence = some (r, x')) : SameFiles x x' := by
  unfold sysLseek at h
  cases hf : realFile self.fds fd with
  | none =>
    rw [hf] at h
    cases h
    exact SameFiles.refl
  | some f =>
    rw [hf] at h
    obtain ⟨file, -, h⟩ := Option.map_eq_some_iff.1 h
    cases hbase : seekBase file whence with
    | none =>
      rw [hbase] at h
      cases h
      exact SameFiles.refl
    | some base =>
      rw [hbase] at h
      dsimp only at h
      split_ifs at h
      · cases h
        exact SameFiles.refl
      · cases h
        exact setOffset_same

theorem getdents64_same {readdir : ℕ → ℕ → Option (List U8)} {q : Getdents.Request}
    (h : sysGetdents64 x self fd readdir q = some (r, x')) : SameFiles x x' := by
  unfold sysGetdents64 at h
  cases hf : realFile self.fds fd with
  | none =>
    rw [hf] at h
    cases h
    exact SameFiles.refl
  | some f =>
    rw [hf] at h
    obtain ⟨file, -, h⟩ := Option.bind_eq_some_iff.1 h
    obtain ⟨out, -, h⟩ := Option.map_eq_some_iff.1 h
    cases h
    exact setOffset_same

theorem call_same (he : e.edits = false) (hc : call x self e = some (r, x')) : SameFiles x x' := by
  cases e with
  | read fd n => exact read_same hc
  | lseek fd offset whence => exact lseek_same hc
  | fstat fd =>
    obtain ⟨out, -, hc⟩ := Option.map_eq_some_iff.1 hc
    cases hc
    exact SameFiles.refl
  | getdents64 fd readdir q => exact getdents64_same hc
  | openat target block => cases he
  | close fd => cases he
  | sched e => cases hc
  | lookup target block => cases hc

/-- what a call keeps, if it is no shared close -/
theorem call_sound (hs : Sound x.pool) (hl : Live x.s x.s.current) (hb : e.fresh x = true) (hu : Unshared x e)
    (hc : call x (x.s.tb.task x.s.current) e = some (r, x')) : Sound x'.pool := by
  cases e with
  | openat target block =>
    have hb : block ∉ x.files := by simpa [Event.fresh] using hb
    have h : Sound (sysOpenat x (x.s.tb.task x.s.current) target block).2.pool := openat_sound hs hl hb
    rw [Option.some.inj hc] at h
    exact h
  | close fd =>
    have h := close_sound hs hl hu
    rw [Option.some.inj hc] at h
    exact h
  | _ => exact (call_same rfl hc).pool ▸ hs

/-- the scheduler sees a new table at most -/
theorem call_tables (hc : call x self e = some (r, x')) : x'.s = x.s ∨ ∃ g, x'.s = (x.setFds g).s := by
  cases e with
  | openat target block =>
    have hx : (sysOpenat x self target block).2 = x' := congrArg Prod.snd (Option.some.inj hc)
    rw [← hx]
    unfold sysOpenat
    cases hv : vfsOpen x target block with
    | none => exact Or.inl rfl
    | some y =>
      obtain ⟨f, x1⟩ := y
      obtain ⟨rfl, inode, rfl⟩ := vfsOpen_some hv
      cases ha : allocFd self.fds with
      | none => exact Or.inl rfl
      | some i => exact Or.inr ⟨_, rfl⟩
  | close fd =>
    have hx : (sysClose x self fd).2 = x' := congrArg Prod.snd (Option.some.inj hc)
    rw [← hx]
    unfold sysClose
    cases hf : realFile self.fds fd with
    | none => exact Or.inl rfl
    | some f => exact Or.inr ⟨_, rfl⟩
  | _ => exact Or.inl (call_same rfl hc).1

/-- **A call that fails** leaves tables and Files as they were. -/
theorem failed_unchanged (hc : call x self e = some (r, x')) (hr : r.toInt < 0) : x'.s = x.s ∧ x'.files = x.files := by
  cases e with
  | openat target block =>
    have hout : sysOpenat x self target block = (r, x') := Option.some.inj hc
    unfold sysOpenat at hout
    cases hv : vfsOpen x target block with
    | none =>
      rw [hv] at hout
      cases hout
      exact ⟨rfl, rfl⟩
    | some y =>
      obtain ⟨f, x1⟩ := y
      obtain ⟨rfl, inode, rfl⟩ := vfsOpen_some hv
      rw [hv] at hout
      cases ha : allocFd self.fds with
      | none =>
        simp only [ha, Prod.mk.injEq] at hout
        rw [← hout.2]
        exact ⟨rfl, List.erase_cons_head ..⟩
      | some i =>
        simp only [ha, Prod.mk.injEq] at hout
        have hi := i.isLt
        have hsmall : i.val < 2 ^ 63 := by
          unfold MAX_FDS at hi
          omega
        rw [← hout.1, BitVec.toInt_eq_toNat_of_lt (by rw [BitVec.toNat_ofNat]; omega)] at hr
        omega
  | close fd =>
    have hout : sysClose x self fd = (r, x') := Option.some.inj hc
    unfold sysClose at hout
    cases hf : realFile self.fds fd with
    | none =>
      rw [hf] at hout
      cases hout
      exact ⟨rfl, rfl⟩
    | some f =>
      rw [hf] at hout
      cases hout
      exact absurd hr (by decide)
  | _ =>
    obtain ⟨h1, h2, -⟩ := call_same rfl hc
    exact ⟨h1, h2⟩

/-- a descriptor of a live task leads to its File -/
theorem realFile_get {q : Ptr} (h : NoDangling x) (hl : Live x.s q) (hf : realFile (x.s.tb.task q).fds fd = some f) :
    x.get f = some (x.file f) := by
  obtain ⟨i, hi, -⟩ := realFile_some hf
  exact if_pos (h.valid q hl i f hi)

/-- the running task makes a call -/
theorem step_call (he : ∀ e', e ≠ .sched e') (hl : ∀ target block, e ≠ .lookup target block)
    (hs : step x e = some x') : x.s.current ∈ x.s.tb.live ∧ x.s.scheduling = false ∧ e.fresh x = true ∧
      ∃ r, call x (x.s.tb.task x.s.current) e = some (r, x') := by
  have hs' : ((x.s.tb.get x.s.current).bind fun self =>
      if ready x self && e.fresh x then (call x self e).map Prod.snd else none) = some x' := by
    cases e with
    | sched e => exact absurd rfl (he e)
    | lookup target block => exact absurd rfl (hl target block)
    | _ => exact hs
  obtain ⟨self, hself, hs'⟩ := Option.bind_eq_some_iff.1 hs'
  obtain ⟨hlive, rfl⟩ := get_some.1 hself
  split_ifs at hs' with hen
  rw [Bool.and_eq_true] at hen
  obtain ⟨y, hy, rfl⟩ := Option.map_eq_some_iff.1 hs'
  refine ⟨hlive, ?_, hen.2, y.1, hy⟩
  have hready := hen.1
  unfold ready at hready
  simp only [Bool.and_eq_true, Bool.not_eq_true'] at hready
  exact hready.1.1

/-- outside `schedule`, the running task is alive -/
theorem live_current {l : List Ptr} (hq : Queue x.s.abs l) (hs : x.s.scheduling = false) : Live x.s x.s.current := by
  refine ⟨hq.cur_live, ?_⟩
  have hrun : (x.s.tb.task x.s.current).state = .Running := hq.active.2 hs
  rw [hrun]
  exact State.noConfusion

/-- scheduler events: a new task has no files, or its parent's -/
theorem sched_sound {e : Sched.Event} {s' : Sched.Sys} {l : List Ptr} (hq : Queue x.s.abs l)
    (hst : Sched.step x.s e = some s') (hs : Sound x.pool) : Sound ({ x with s := s' } : Fs).pool := by
  refine hs.holders rfl rfl fun q hlive => ?_
  have htb := step_fds hst q
  by_cases hadd : ∃ par, e.adds x.s = some (q, par)
  · obtain ⟨par, hadd⟩ := hadd
    cases e with
    | spawn p top =>
      cases hadd
      refine Or.inr fun i => ?_
      show (s'.tb.task q).fds i = none
      rw [htb]
      simp [Event.table]
    | spawnFromElf p top =>
      cases hadd
      refine Or.inr fun i => ?_
      show (s'.tb.task q).fds i = none
      rw [htb]
      simp [Event.table]
    | fork p top =>
      cases hadd
      refine Or.inl ⟨x.s.current, live_current hq (outside_schedule Sched.Event.noConfusion hst), ?_⟩
      show (s'.tb.task q).fds = _
      rw [htb]
      exact if_pos rfl
    | _ => cases hadd
  · refine Or.inl ⟨q, alive_of_step hq hst (fun par h => hadd ⟨par, h⟩) hlive.1 hlive.2, ?_⟩
    show (s'.tb.task q).fds = _
    rw [htb]
    exact table_old fun par h => hadd ⟨par, h⟩

/-- **Step.** -/
theorem step_inv (h : Inv x) (hu : Unshared x e) (hs : step x e = some x') : Inv x' := by
  obtain ⟨l, hq⟩ := h.queue
  by_cases hsched : ∃ e', e = .sched e'
  · obtain ⟨e', rfl⟩ := hsched
    obtain ⟨s', hst, rfl⟩ := Option.map_eq_some_iff.1 hs
    exact ⟨step_queue ⟨l, hq⟩ hst, sched_sound hq hst h.sound⟩
  by_cases hlookup : ∃ target block, e = .lookup target block
  · obtain ⟨target, block, rfl⟩ := hlookup
    have hs' : (if block ∈ x.files then none else some (lookup x target block)) = some x' := hs
    split_ifs at hs' with hb
    cases hs'
    refine ⟨⟨l, ?_⟩, lookup_sound h.sound hb⟩
    rw [lookup_s]
    exact hq
  obtain ⟨-, hsc, hb, r, hc⟩ := step_call (fun e' he => hsched ⟨e', he⟩)
    (fun target block he => hlookup ⟨target, block, he⟩) hs
  refine ⟨?_, call_sound h.sound (live_current hq hsc) hb hu hc⟩
  rcases call_tables hc with heq | ⟨g, heq⟩
  · rw [heq]
    exact ⟨l, hq⟩
  · rw [heq]
    exact setFds_queue hsc hq

/-- a step that is not good leaves a dangling entry -/
theorem step_dangling (h : Inv x) (hu : ¬ Unshared x e) (hs : step x e = some x') : ¬ NoDangling x' := by
  cases e with
  | close fd =>
    obtain ⟨-, -, -, r, hc⟩ := step_call (fun _ => Event.noConfusion) (fun _ _ => Event.noConfusion) hs
    have hx : (sysClose x (x.s.tb.task x.s.current) fd).2 = x' := congrArg Prod.snd (Option.some.inj hc)
    rw [← hx]
    exact close_dangling h.sound hu
  | _ => exact absurd trivial hu

end Steps

/-! ## Runs -/

section Runs

variable {boot idle : Ptr} {top : U64} {m : Vmm.Machine} {cpu : Cpu} {es : List Event}

theorem init_inv (hne : boot ≠ idle) : Inv (init boot idle top m cpu) := by
  have hempty : ∀ q, ((init boot idle top m cpu).s.tb.task q).fds = fun _ => none := by
    intro q
    have htask : (init boot idle top m cpu).s.tb.task = Function.update (Function.update (fun _ => create 0 0 0) boot
      { create 0 0 0 with state := .Running, next := idle }) idle { create 1 top 0 with next := boot } := rfl
    rw [htask]
    by_cases hi : q = idle
    · rw [hi, Function.update_self]
      rfl
    · rw [Function.update_of_ne hi]
      by_cases hb : q = boot
      · rw [hb, Function.update_self]
        rfl
      · rw [Function.update_of_ne hb]
        rfl
  have hnone : ∀ q i, (init boot idle top m cpu).pool.ref q i = none := fun q i => congrFun (hempty q) i
  refine ⟨⟨_, init_queue hne⟩, ⟨⟨fun {q i f} _ hr => ?_, List.nodup_nil⟩, fun {q i j f} _ hi _ => ?_, List.nodup_nil,
    fun {f} hf => absurd hf List.not_mem_nil⟩⟩
  · rw [hnone] at hr
    cases hr
  · rw [hnone] at hi
    cases hi

/-- **No dangling descriptors, exactly when.** In every run from boot on, every entry of every live task points to an
allocated File and no File is freed twice, if and only if no task closes a File that another live task has open. -/
theorem no_dangling_iff (hne : boot ≠ idle) (hrun : (es.foldlM step (init boot idle top m cpu)).isSome) :
    Always step NoDangling (init boot idle top m cpu) es ↔ Each step Unshared (init boot idle top m cpu) es :=
  always_iff_each (I := Inv) (fun _ h => safe_iff.1 h.sound.toSafe) (fun _ _ _ h hu hs => step_inv h hu hs)
    (fun _ _ _ h hu hs => step_dangling h hu hs) (init_inv hne) hrun

/-- the kernel after boot -/
def booted : Fs := init 1 2 0x2000 Vmm.bootMachine ⟨0, 0, 0⟩

/-- task 3 opens a file as descriptor 3 and forks task 4 -/
def opensAndForks : List Event :=
  [.sched (.spawnFromElf 3 0x20000), .sched .yield, .sched .switch, .openat (some ⟨10, false⟩) 0x5000,
    .sched (.fork 4 0x30000)]

/-- then it closes the shared file, or one that it opens after the fork -/
def closesShared : List Event := opensAndForks ++ [.close 3]

def opensOwn : List Event := opensAndForks ++ [.openat (some ⟨20, false⟩) 0x6000]

def closesOwn : List Event := opensOwn ++ [.close 4]

theorem no_dangling_sample : Always step NoDangling booted closesOwn := by
  refine (no_dangling_iff (by decide) (by decide +kernel)).2 ?_
  refine Each.append ⟨trivial, fun _ _ => ⟨trivial, fun _ _ => ⟨trivial, fun _ _ => ⟨trivial, fun _ _ => ⟨trivial,
    fun _ _ => ⟨trivial, fun _ _ => trivial⟩⟩⟩⟩⟩⟩ fun x hx => ⟨?_, fun _ _ => trivial⟩
  -- descriptor 4 of the running task is block 0x6000, which nobody else has
  have hown : (opensOwn.foldlM step booted).map (fun x : Fs =>
      decide (realFile (x.s.tb.task x.s.current).fds 4 = some 0x6000 ∧ ∀ q ∈ x.s.tb.live, q ≠ x.s.current →
        ∀ i, (x.s.tb.task q).fds i ≠ some 0x6000)) = some true := by decide +kernel
  have hx : opensOwn.foldlM step booted = some x := hx
  rw [hx] at hown
  obtain ⟨hfile, hothers⟩ := of_decide_eq_true (Option.some.inj hown)
  intro f hf q hq hql i
  rw [hfile] at hf
  cases hf
  exact hothers q hql.1 hq i

/-- **A dangling descriptor.** The parent closes descriptor 3, and the child's entry leads to a freed block. -/
theorem close_after_fork : ¬ ∀ (boot idle : Ptr) (top : U64) (m : Vmm.Machine) (cpu : Cpu) (es : List Event),
    boot ≠ idle → (es.foldlM step (init boot idle top m cpu)).isSome →
    Always step NoDangling (init boot idle top m cpu) es := by
  intro hall
  have hrun : (closesShared.foldlM step booted).isSome = true := by decide +kernel
  obtain ⟨x, hx⟩ := Option.isSome_iff_exists.1 hrun
  have hsafe := (hall 1 2 0x2000 Vmm.bootMachine ⟨0, 0, 0⟩ closesShared (by decide) hrun).last hx
  have hleft : (closesShared.foldlM step booted).map (fun x : Fs =>
      decide (Live x.s 4 ∧ (x.s.tb.task 4).fds ⟨3, by decide⟩ = some 0x5000 ∧ 0x5000 ∉ x.files)) = some true := by
    decide +kernel
  rw [hx] at hleft
  obtain ⟨hlive, hentry, hgone⟩ := of_decide_eq_true (Option.some.inj hleft)
  exact hgone (hsafe.valid 4 hlive _ 0x5000 hentry)

end Runs

end Retux.Files
