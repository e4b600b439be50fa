/-
What the file calls are for: open file descriptions.

An open makes a description, with an offset of its own; a descriptor of a task refers to one. A fork copies the table, so
parent and child move one offset; a close drops the caller's descriptor and nothing else. `Posix` is that machine. Its
descriptions are numbered as they are made and never reused, its scheduler lets any task run, and it knows no heap.

The kernel's descriptions are heap blocks, handed out again after a close, and dead tasks still point to them. As long as
no task closes a File that another one has open, this cannot be seen:

- `Agrees`: the Files that live tasks have open are the descriptions, one for one;
- `Agrees.openat`, `Agrees.close`, `Agrees.onFile`, `Agrees.sched`: an operation each;
- `descriptions_refine`: every run of all tasks looks like one of `Posix`.
-/
import Mathlib.Tactic
import Retux.Lib.Refine
import Retux.Sys.Files
import Retux.Task.Context

namespace Retux.Descriptions

open Retux.Word Retux.Bytes Retux.Sys Retux.Sched Retux.Run Retux.Refine Retux.Files

/-! ## The abstract model -/

structure Posix where
  current : Ptr
  table : Ptr → Fin MAX_FDS → Option ℕ
  /-- what is open, at which offset -/
  desc : ℕ → File
  next : ℕ

/-- a file call, without the block the heap gives -/
inductive Call where
  | openat (target : Option Files.Inode)
  | close (fd : U64)
  | read (fd n : U64)
  | lseek (fd offset whence : U64)
  | fstat (fd : U64)
  | getdents64 (fd : U64) (readdir : ℕ → ℕ → Option (List U8)) (q : Getdents.Request)

/-- what a call on an open file returns, and the offset it leaves -/
def Call.work : Call → File → Option (U64 × U64)
  | .read _ n, file => some (if n.toInt < 0 then (- Sys.EIO, file.offset) else (n, file.offset + n))
  | .lseek _ offset whence, file =>
    some (match seekBase file whence with
      | none => (-EINVAL, file.offset)
      | some base => if (base + offset).toInt < 0 then (-EINVAL, file.offset) else (base + offset, base + offset))
  | .getdents64 _ readdir q, file =>
    (Getdents.sysGetdents64 file.inode.isDir readdir file.offset q.count q.out q.vfsBuf).map fun r => (r.1, r.2.1)
  | _, file => some (0, file.offset)

namespace Posix

/-- the running task's table -/
def fds (a : Posix) : Fin MAX_FDS → Option ℕ := a.table a.current

def setFds (a : Posix) (fds : Fin MAX_FDS → Option ℕ) : Posix :=
  { a with table := Function.update a.table a.current fds }

/-- a new description, at descriptor i -/
def opens (a : Posix) (i : Fin MAX_FDS) (inode : Files.Inode) : Posix :=
  { a.setFds (Function.update a.fds i (some a.next)) with
    desc := Function.update a.desc a.next ⟨inode, 0⟩, next := a.next + 1 }

def seek (a : Posix) (d : ℕ) (offset : U64) : Posix :=
  { a with desc := Function.update a.desc d { a.desc d with offset := offset } }

/-- a call on what the descriptor refers to: what it returns, and the description it found -/
def onFile (a : Posix) (fd : U64) (c : Call) : Option (U64 × Option File × Posix) :=
  match realFile a.fds fd with
  | none => some (-EBADF, none, a)
  | some d => (c.work (a.desc d)).map fun r => (r.1, some (a.desc d), a.seek d r.2)

def call (a : Posix) : Call → Option (U64 × Option File × Posix)
  | .openat none => some (-ENOENT, none, a)
  | .openat (some inode) =>
    match allocFd a.fds with
    | none => some (-EMFILE, none, a)
    | some i => some (BitVec.ofNat 64 i.val, none, a.opens i inode)
  | .close fd =>
    match realFile a.fds fd with
    | none => some (-EBADF, none, a)
    | some d => some (0, some (a.desc d), a.setFds fun i => if i.val = fd.toNat then none else a.fds i)
  | .read fd n =>
    if fd = 0 then some (n, none, a) else if fd = 1 ∨ fd = 2 then some (-EBADF, none, a) else a.onFile fd (.read fd n)
  | .fstat fd => if fd = 0 ∨ fd = 1 ∨ fd = 2 then some (0, none, a) else a.onFile fd (.fstat fd)
  | .lseek fd offset whence => a.onFile fd (.lseek fd offset whence)
  | .getdents64 fd readdir q => a.onFile fd (.getdents64 fd readdir q)

end Posix

/-- what can be seen of a step: a call with what it returned and found, or what the scheduler did to the tables -/
inductive Seen where
  | call (c : Call) (r : U64) (file : Option File)
  | spawn (p : Ptr)
  | fork (p : Ptr)
  | other

inductive Posix.Step (a : Posix) : Seen → Posix → Prop where
  | call {c : Call} {r : U64} {file : Option File} {b : Posix} (h : a.call c = some (r, file, b)) :
    Posix.Step a (.call c r file) b
  | spawn {p : Ptr} : Posix.Step a (.spawn p) { a with table := Function.update a.table p fun _ => none }
  | fork {p : Ptr} : Posix.Step a (.fork p) { a with table := Function.update a.table p a.fds }
  /-- any task may run next -/
  | other {q : Ptr} : Posix.Step a .other { a with current := q }

/-- nothing is open -/
def Posix.init (boot : Ptr) : Posix := ⟨boot, fun _ _ => none, fun _ => ⟨⟨0, false⟩, 0⟩, 0⟩

/-! ## What can be seen of the kernel -/

section Labels

/-- what a call of the running task returns -/
def returned (x : Fs) (e : Files.Event) : U64 := ((Files.call x (x.s.tb.task x.s.current) e).map Prod.fst).getD 0

/-- what a descriptor of the running task leads to -/
def found (x : Fs) (fd : U64) : Option File := (realFile (x.s.tb.task x.s.current).fds fd).map x.file

/-- without a block, an open fails as for a path that leads nowhere -/
def label (x : Fs) : Files.Event → Seen
  | .sched (.spawn p _) | .sched (.spawnFromElf p _) => .spawn p
  | .sched (.fork p _) => .fork p
  | .sched _ | .lookup _ _ => .other
  | .openat target block =>
    .call (.openat (if block = 0 then none else target)) (returned x (.openat target block)) none
  | .close fd => .call (.close fd) (returned x (.close fd)) (found x fd)
  | .read fd n => .call (.read fd n) (returned x (.read fd n)) (found x fd)
  | .lseek fd offset whence => .call (.lseek fd offset whence) (returned x (.lseek fd offset whence)) (found x fd)
  | .fstat fd => .call (.fstat fd) (returned x (.fstat fd)) (found x fd)
  | .getdents64 fd readdir q => .call (.getdents64 fd readdir q) (returned x (.getdents64 fd readdir q)) (found x fd)

end Labels

/-! ## The relation -/

/-- a live task has f open -/
def Held (x : Fs) (f : Ptr) : Prop := ∃ q i, Live x.s q ∧ (x.s.tb.task q).fds i = some f

/-- the Files that are held are the descriptions, by φ -/
structure Agrees (x : Fs) (a : Posix) (φ : Ptr → ℕ) : Prop where
  current : a.current = x.s.current
  table : ∀ q, Live x.s q → ∀ i, a.table q i = ((x.s.tb.task q).fds i).map φ
  desc : ∀ f, Held x f → a.desc (φ f) = x.file f
  made : ∀ f, Held x f → φ f < a.next
  inj : ∀ f g, Held x f → Held x g → φ f = φ g → f = g

section Calls

variable {x x' : Fs} {a : Posix} {φ : Ptr → ℕ} {t : Fin MAX_FDS → Option Ptr} {fd r : U64} {f : Ptr} {i : Fin MAX_FDS}
  {c : Call}

theorem realFile_map : realFile (fun i => (t i).map φ) fd = (realFile t fd).map φ := by
  unfold realFile
  split_ifs
  · rfl
  · rfl

theorem allocFd_map : allocFd (fun i => (t i).map φ) = allocFd t := by
  unfold allocFd
  simp only [Option.map_eq_none_iff]

theorem Agrees.fds (h : Agrees x a φ) (hl : Live x.s x.s.current) :
    a.fds = fun i => ((x.s.tb.task x.s.current).fds i).map φ := by
  funext i
  unfold Posix.fds
  rw [h.current]
  exact h.table _ hl i

/-- the first three descriptors are no Files -/
theorem realFile_std (h : fd = 0 ∨ fd = 1 ∨ fd = 2) : realFile t fd = none := by
  rcases h with rfl | rfl | rfl <;> rfl

theorem held_of_realFile (hl : Live x.s x.s.current) (hf : realFile (x.s.tb.task x.s.current).fds fd = some f) :
    Held x f := by
  obtain ⟨i, hi, -⟩ := realFile_some hf
  exact ⟨x.s.current, i, hl, hi⟩

/-- a new offset -/
theorem Agrees.seek (h : Agrees x a φ) (hf : Held x f) (offset : U64) :
    Agrees (x.setOffset f offset) (a.seek (φ f) offset) φ := by
  refine ⟨h.current, h.table, fun g hg => ?_, h.made, h.inj⟩
  show Function.update a.desc (φ f) _ (φ g) = Function.update x.file f _ g
  by_cases hgf : g = f
  · rw [hgf, Function.update_self, Function.update_self, h.desc f hf]
  · have hne : φ g ≠ φ f := fun he => hgf (h.inj g f hg hf he)
    rw [Function.update_of_ne hne, Function.update_of_ne hgf]
    exact h.desc g hg

/-- the kernel's calls on an open file, as `Posix.onFile` -/
def onFile (x : Fs) (self : Task) (fd : U64) (c : Call) : Option (U64 × Fs) :=
  match realFile self.fds fd with
  | none => some (-EBADF, x)
  | some f => (x.get f).bind fun file => (c.work file).map fun r => (r.1, x.setOffset f r.2)

theorem Agrees.onFile (h : Agrees x a φ) (hn : NoDangling x) (hl : Live x.s x.s.current)
    (hc : onFile x (x.s.tb.task x.s.current) fd c = some (r, x')) :
    ∃ b, a.onFile fd c = some (r, found x fd, b) ∧ Agrees x' b φ := by
  unfold Descriptions.onFile at hc
  unfold Posix.onFile found
  rw [h.fds hl, realFile_map]
  cases hf : realFile (x.s.tb.task x.s.current).fds fd with
  | none =>
    rw [hf] at hc
    cases hc
    exact ⟨a, rfl, h⟩
  | some f =>
    have hheld := held_of_realFile hl hf
    rw [hf] at hc
    simp only [realFile_get hn hl hf, Option.bind_some] at hc
    obtain ⟨w, hw, heq⟩ := Option.map_eq_some_iff.1 hc
    cases heq
    refine ⟨a.seek (φ f) w.2, ?_, h.seek hheld w.2⟩
    simp only [Option.map_some, h.desc f hheld, hw]

/-- fewer Files held, or other tables over them -/
theorem Agrees.over {b : Posix} (h : Agrees x a φ) (hcur : b.current = x'.s.current)
    (htable : ∀ q, Live x'.s q → ∀ i, b.table q i = ((x'.s.tb.task q).fds i).map φ)
    (hheld : ∀ f, Held x' f → Held x f ∧ x'.file f = x.file f) (hdesc : b.desc = a.desc) (hnext : b.next = a.next) :
    Agrees x' b φ := by
  refine ⟨hcur, htable, fun f hf => ?_, fun f hf => ?_, fun f g hf hg he => h.inj f g (hheld f hf).1 (hheld g hg).1 he⟩
  · rw [hdesc, (hheld f hf).2]
    exact h.desc f (hheld f hf).1
  · rw [hnext]
    exact h.made f (hheld f hf).1

theorem setFds_table (x : Fs) (g : Fin MAX_FDS → Option Ptr) (q : Ptr) :
    ((x.setFds g).s.tb.task q).fds = if q = x.s.current then g else (x.s.tb.task q).fds := by
  show ((x.s.tb.set x.s.current _).task q).fds = _
  by_cases hq : q = x.s.current
  · rw [hq, set_self, if_pos rfl]
  · rw [set_other hq, if_neg hq]

theorem setFds_held {g : Fin MAX_FDS → Option Ptr} (h : Held (x.setFds g) f) : (∃ i, g i = some f) ∨ Held x f := by
  obtain ⟨q, i, hl, hi⟩ := h
  rw [setFds_table] at hi
  split_ifs at hi
  · exact Or.inl ⟨i, hi⟩
  · exact Or.inr ⟨q, i, (setFds_live q).1 hl, hi⟩

/-- the tables after the running task's was set, on both sides -/
theorem Agrees.setFds_table {g : Fin MAX_FDS → Option Ptr} {g' : Fin MAX_FDS → Option ℕ} {ψ : Ptr → ℕ}
    (h : Agrees x a φ) (hψ : ∀ f, Held x f → ψ f = φ f) (hg : ∀ i, g' i = (g i).map ψ) (q : Ptr)
    (hl : Live (x.setFds g).s q) (i : Fin MAX_FDS) :
    (a.setFds g').table q i = (((x.setFds g).s.tb.task q).fds i).map ψ := by
  have hlive : Live x.s q := (setFds_live q).1 hl
  rw [Descriptions.setFds_table]
  show Function.update a.table a.current g' q i = _
  rw [h.current]
  by_cases hq : q = x.s.current
  · rw [if_pos hq, hq, Function.update_self]
    exact hg i
  · rw [if_neg hq, Function.update_of_ne hq, h.table q hlive]
    cases hf : (x.s.tb.task q).fds i with
    | none => rfl
    | some f => rw [Option.map_some, Option.map_some, hψ f ⟨q, i, hlive, hf⟩]

theorem Agrees.close (h : Agrees x a φ) (hl : Live x.s x.s.current)
    (hc : sysClose x (x.s.tb.task x.s.current) fd = (r, x')) :
    ∃ b, a.call (.close fd) = some (r, found x fd, b) ∧ Agrees x' b φ := by
  unfold sysClose at hc
  simp only [Posix.call, found, h.fds hl, realFile_map]
  cases hf : realFile (x.s.tb.task x.s.current).fds fd with
  | none =>
    rw [hf] at hc
    cases hc
    exact ⟨a, rfl, h⟩
  | some f =>
    rw [hf] at hc
    cases hc
    have hheld := held_of_realFile hl hf
    simp only [Option.map_some, h.desc f hheld]
    refine ⟨_, rfl, h.over h.current ?_ ?_ rfl rfl⟩
    · refine h.setFds_table (fun _ _ => rfl) fun i => ?_
      split_ifs
      · rfl
      · rfl
    · intro g hg
      refine ⟨?_, rfl⟩
      rcases setFds_held hg with ⟨i, hi⟩ | hold
      · split_ifs at hi
        exact ⟨x.s.current, i, hl, hi⟩
      · exact hold

/-- the block of a new File is in nobody's table -/
theorem held_ne {block : Ptr} (hn : NoDangling x) (hb : block ∉ x.files) (hf : Held x f) : f ≠ block := by
  rintro rfl
  obtain ⟨q, i, hlive, hi⟩ := hf
  exact hb (hn.valid q hlive i f hi)

/-- a new File is the next description -/
theorem Agrees.opens {block : Ptr} (h : Agrees x a φ) (hn : NoDangling x) (hb : block ∉ x.files)
    (hl : Live x.s x.s.current) (i : Fin MAX_FDS) (inode : Files.Inode) :
    Agrees ((x.kmalloc block ⟨inode, 0⟩).setFds (Function.update (x.s.tb.task x.s.current).fds i (some block)))
      (a.opens i inode) (Function.update φ block a.next) := by
  have hψ : ∀ f, Held x f → Function.update φ block a.next f = φ f := fun f hf =>
    Function.update_of_ne (held_ne hn hb hf) _ _
  have hself : Function.update φ block a.next block = a.next := Function.update_self ..
  -- held: the new one, or one held before
  have hheld : ∀ f, Held ((x.kmalloc block ⟨inode, 0⟩).setFds
      (Function.update (x.s.tb.task x.s.current).fds i (some block))) f → f = block ∨ Held x f := by
    intro f hf
    rcases setFds_held hf with ⟨j, hj⟩ | hold
    · by_cases hji : j = i
      · rw [hji, Function.update_self] at hj
        exact Or.inl (Option.some.inj hj).symm
      · rw [Function.update_of_ne hji] at hj
        exact Or.inr ⟨x.s.current, j, hl, hj⟩
    · exact Or.inr hold
  refine ⟨h.current, ?_, fun f hf => ?_, fun f hf => ?_, fun f g hf hg he => ?_⟩
  · refine h.setFds_table (x := x) hψ fun j => ?_
    by_cases hji : j = i
    · rw [hji, Function.update_self, Function.update_self, Option.map_some, hself]
    · have hj : a.fds j = ((x.s.tb.task x.s.current).fds j).map φ := congrFun (h.fds hl) j
      rw [Function.update_of_ne hji, Function.update_of_ne hji, hj]
      cases hf : (x.s.tb.task x.s.current).fds j with
      | none => rfl
      | some f => rw [Option.map_some, Option.map_some, hψ f ⟨x.s.current, j, hl, hf⟩]
  · show Function.update a.desc a.next ⟨inode, 0⟩ _ = Function.update x.file block ⟨inode, 0⟩ f
    rcases hheld f hf with rfl | hold
    · rw [hself, Function.update_self, Function.update_self]
    · have hne : φ f ≠ a.next := (h.made f hold).ne
      rw [hψ f hold, Function.update_of_ne hne, Function.update_of_ne (held_ne hn hb hold)]
      exact h.desc f hold
  · show _ < a.next + 1
    rcases hheld f hf with rfl | hold
    · rw [hself]
      exact Nat.lt_succ_self _
    · rw [hψ f hold]
      exact (h.made f hold).trans (Nat.lt_succ_self _)
  · rcases hheld f hf with rfl | hold
    · rcases hheld g hg with rfl | hold'
      · rfl
      · rw [hself, hψ g hold'] at he
        exact absurd he.symm (h.made g hold').ne
    · rcases hheld g hg with rfl | hold'
      · rw [hself, hψ f hold] at he
        exact absurd he (h.made f hold).ne
      · rw [hψ f hold, hψ g hold'] at he
        exact h.inj f g hold hold' he

theorem Agrees.openat {target : Option Files.Inode} {block : Ptr} (h : Agrees x a φ) (hn : NoDangling x)
    (hb : block ∉ x.files) (hl : Live x.s x.s.current)
    (hc : sysOpenat x (x.s.tb.task x.s.current) target block = (r, x')) :
    ∃ b, a.call (.openat (if block = 0 then none else target)) = some (r, none, b) ∧ ∃ ψ, Agrees x' b ψ := by
  -- a path that leads nowhere, or no block
  have hfail : ∀ t : Option Files.Inode, vfsOpen x target block = none → t = none →
      ∃ b, a.call (.openat t) = some (r, none, b) ∧ ∃ ψ, Agrees x' b ψ := by
    rintro t hv rfl
    unfold sysOpenat at hc
    rw [hv] at hc
    cases hc
    exact ⟨a, rfl, φ, h⟩
  cases target with
  | none => exact hfail _ rfl (ite_self _)
  | some inode =>
    by_cases h0 : block = 0
    · exact hfail _ (if_pos h0) (if_pos h0)
    have hv : vfsOpen x (some inode) block = some (block, x.kmalloc block ⟨inode, 0⟩) := if_neg h0
    have hold : ∀ g, Held x g → (x.kmalloc block ⟨inode, 0⟩).file g = x.file g := fun g hg =>
      Function.update_of_ne (held_ne hn hb hg) _ _
    rw [if_neg h0]
    simp only [Posix.call, h.fds hl, allocFd_map]
    unfold sysOpenat at hc
    cases ha : allocFd (x.s.tb.task x.s.current).fds with
    | none =>
      simp only [hv, ha, Prod.mk.injEq] at hc
      obtain ⟨rfl, rfl⟩ := hc
      exact ⟨a, rfl, φ, h.over h.current h.table (fun g hg => ⟨hg, hold g hg⟩) rfl rfl⟩
    | some i =>
      simp only [hv, ha, Prod.mk.injEq] at hc
      obtain ⟨rfl, rfl⟩ := hc
      exact ⟨a.opens i inode, rfl, Function.update φ block a.next, h.opens hn hb hl i inode⟩

end Calls

/-! ## The kernel's calls on open files -/

section Work

variable {x x' : Fs} {self : Task} {fd n offset whence : U64} {f : Ptr}

theorem setOffset_self : x.setOffset f (x.file f).offset = x := by
  unfold Fs.setOffset
  rw [Function.update_eq_self]

theorem get_eq {file : File} (h : x.get f = some file) : file = x.file f := by
  unfold Fs.get at h
  split_ifs at h
  exact (Option.some.inj h).symm

theorem sysRead_eq : Files.sysRead x self fd n = if fd = 0 then some (n, x) else if fd = 1 ∨ fd = 2 then some (-EBADF, x)
    else onFile x self fd (.read fd n) := by
  unfold Files.sysRead onFile
  refine ite_congr rfl (fun _ => rfl) fun _ => ite_congr rfl (fun _ => rfl) fun _ => ?_
  cases realFile self.fds fd with
  | none => rfl
  | some f =>
    cases hf : x.get f with
    | none => simp only [hf, Option.map_none, Option.bind_none]
    | some file =>
      have hfile := get_eq hf
      subst hfile
      simp only [hf, Option.map_some, Option.bind_some, Call.work]
      split_ifs
      · rw [setOffset_self]
      · rfl

theorem sysLseek_eq : Files.sysLseek x self fd offset whence = onFile x self fd (.lseek fd offset whence) := by
  unfold Files.sysLseek onFile
  cases realFile self.fds fd with
  | none => rfl
  | some f =>
    cases hf : x.get f with
    | none => simp only [hf, Option.map_none, Option.bind_none]
    | some file =>
      have hfile := get_eq hf
      subst hfile
      simp only [hf, Option.map_some, Option.bind_some, Call.work]
      cases seekBase (x.file f) whence with
      | none => simp only [setOffset_self]
      | some base =>
        dsimp only
        split_ifs
        · rw [setOffset_self]
        · rfl

theorem sysFstat_eq : (sysFstat x self fd).map (fun r => (r.1, x)) =
    if fd = 0 ∨ fd = 1 ∨ fd = 2 then some (0, x) else onFile x self fd (.fstat fd) := by
  unfold sysFstat onFile
  split_ifs
  · rfl
  · cases realFile self.fds fd with
    | none => rfl
    | some f =>
      cases hf : x.get f with
      | none => simp only [hf, Option.map_none, Option.bind_none]
      | some file =>
        have hfile := get_eq hf
        subst hfile
        simp only [hf, Option.map_some, Option.bind_some, Call.work, setOffset_self]

theorem sysGetdents64_eq {readdir : ℕ → ℕ → Option (List U8)} {q : Getdents.Request} :
    Files.sysGetdents64 x self fd readdir q = onFile x self fd (.getdents64 fd readdir q) := by
  unfold Files.sysGetdents64 onFile
  cases realFile self.fds fd with
  | none => rfl
  | some f =>
    cases hf : x.get f with
    | none => simp only [hf, Option.bind_none]
    | some file => simp only [hf, Option.bind_some, Call.work, Option.map_map, Function.comp_def]

end Work

/-! ## Steps -/

section Steps

variable {x x' : Fs} {a : Posix} {φ : Ptr → ℕ} {e : Files.Event} {l : List Ptr}

/-- a call of the running task -/
theorem Agrees.call {r : U64} (h : Agrees x a φ) (hn : NoDangling x) (hl : Live x.s x.s.current)
    (hb : e.fresh x = true) (hc : Files.call x (x.s.tb.task x.s.current) e = some (r, x')) :
    ∃ b, a.Step (label x e) b ∧ ∃ ψ, Agrees x' b ψ := by
  have hr : returned x e = r := by
    unfold returned
    rw [hc]
    rfl
  cases e with
  | sched e => cases hc
  | lookup target block => cases hc
  | openat target block =>
    have hb' : block ∉ x.files := by simpa [Event.fresh] using hb
    obtain ⟨b, hcall, ψ, hψ⟩ := h.openat hn hb' hl (Option.some.inj hc)
    refine ⟨b, ?_, ψ, hψ⟩
    rw [label, hr]
    exact Posix.Step.call hcall
  | close fd =>
    obtain ⟨b, hcall, hb'⟩ := h.close hl (Option.some.inj hc)
    refine ⟨b, ?_, φ, hb'⟩
    rw [label, hr]
    exact Posix.Step.call hcall
  | read fd n =>
    have hc' := sysRead_eq.symm.trans hc
    rw [label, hr]
    by_cases h0 : fd = 0
    · rw [if_pos h0] at hc'
      cases hc'
      refine ⟨a, Posix.Step.call ?_, φ, h⟩
      simp only [Posix.call, if_pos h0, found, realFile_std (Or.inl h0), Option.map_none]
    · rw [if_neg h0] at hc'
      by_cases h12 : fd = 1 ∨ fd = 2
      · rw [if_pos h12] at hc'
        cases hc'
        refine ⟨a, Posix.Step.call ?_, φ, h⟩
        simp only [Posix.call, if_neg h0, if_pos h12, found, realFile_std (Or.inr h12), Option.map_none]
      · rw [if_neg h12] at hc'
        obtain ⟨b, hcall, hb'⟩ := h.onFile hn hl hc'
        refine ⟨b, Posix.Step.call ?_, φ, hb'⟩
        simp only [Posix.call, if_neg h0, if_neg h12, hcall]
  | lseek fd offset whence =>
    have hc' := sysLseek_eq.symm.trans hc
    obtain ⟨b, hcall, hb'⟩ := h.onFile hn hl hc'
    refine ⟨b, ?_, φ, hb'⟩
    rw [label, hr]
    exact Posix.Step.call hcall
  | fstat fd =>
    have hc' := sysFstat_eq.symm.trans hc
    rw [label, hr]
    by_cases hstd : fd = 0 ∨ fd = 1 ∨ fd = 2
    · rw [if_pos hstd] at hc'
      cases hc'
      refine ⟨a, Posix.Step.call ?_, φ, h⟩
      simp only [Posix.call, if_pos hstd, found, realFile_std hstd, Option.map_none]
    · rw [if_neg hstd] at hc'
      obtain ⟨b, hcall, hb'⟩ := h.onFile hn hl hc'
      refine ⟨b, Posix.Step.call ?_, φ, hb'⟩
      simp only [Posix.call, if_neg hstd, hcall]
  | getdents64 fd readdir q =>
    have hc' := sysGetdents64_eq.symm.trans hc
    obtain ⟨b, hcall, hb'⟩ := h.onFile hn hl hc'
    refine ⟨b, ?_, φ, hb'⟩
    rw [label, hr]
    exact Posix.Step.call hcall

/-- a task more, with a table of Files that are held -/
theorem Agrees.joins {e : Sched.Event} {s' : Sched.Sys} {p : Ptr} {par : Option Ptr} {g : Fin MAX_FDS → Option Ptr}
    (h : Agrees x a φ) (hq : Queue x.s.abs l) (hst : Sched.step x.s e = some s') (hadd : e.adds x.s = some (p, par))
    (hg : ∀ q, e.table x.s q = if q = p then g else (x.s.tb.task q).fds) (hheld : ∀ i f, g i = some f → Held x f) :
    Agrees { x with s := s' } { a with table := Function.update a.table p fun i => (g i).map φ } φ := by
  have htb : ∀ q, (s'.tb.task q).fds = if q = p then g else (x.s.tb.task q).fds := fun q => (step_fds hst q).trans (hg q)
  have hsw : e ≠ .switch := by
    rintro rfl
    cases hadd
  have hlive : ∀ q, Live s' q → q ≠ p → Live x.s q := by
    intro q hl hqp
    refine alive_of_step hq hst (fun par' hadd' => hqp ?_) hl.1 hl.2
    rw [hadd] at hadd'
    exact (congrArg Prod.fst (Option.some.inj hadd')).symm
  refine h.over (h.current.trans (step_current hsw hst).symm) (fun q hl i => ?_) ?_ rfl rfl
  · show Function.update a.table p _ q i = ((s'.tb.task q).fds i).map φ
    rw [htb]
    by_cases hqp : q = p
    · rw [hqp, Function.update_self, if_pos rfl]
    · rw [Function.update_of_ne hqp, if_neg hqp]
      exact h.table q (hlive q hl hqp) i
  · rintro f ⟨q, i, hl, hi⟩
    refine ⟨?_, rfl⟩
    have hi' : (s'.tb.task q).fds i = some f := hi
    rw [htb] at hi'
    split_ifs at hi' with hqp
    · exact hheld i f hi'
    · exact ⟨q, i, hlive q hl hqp, hi'⟩

/-- any other step of the scheduler -/
theorem Agrees.stays {e : Sched.Event} {s' : Sched.Sys} (h : Agrees x a φ) (hq : Queue x.s.abs l)
    (hst : Sched.step x.s e = some s') (hadd : e.adds x.s = none) :
    Agrees { x with s := s' } { a with current := s'.current } φ := by
  have hno : ∀ q par, e.adds x.s ≠ some (q, par) := by
    intro q par he
    rw [hadd] at he
    cases he
  have htb : ∀ q, (s'.tb.task q).fds = (x.s.tb.task q).fds := fun q => (step_fds hst q).trans (table_old (hno q))
  have hlive : ∀ q, Live s' q → Live x.s q := fun q hl => alive_of_step hq hst (hno q) hl.1 hl.2
  refine h.over rfl (fun q hl i => ?_) ?_ rfl rfl
  · show a.table q i = ((s'.tb.task q).fds i).map φ
    rw [htb]
    exact h.table q (hlive q hl) i
  · rintro f ⟨q, i, hl, hi⟩
    have hi' : (s'.tb.task q).fds i = some f := hi
    rw [htb] at hi'
    exact ⟨⟨q, i, hlive q hl, hi'⟩, rfl⟩

/-- what the scheduler does to the tables -/
theorem Agrees.sched {e : Sched.Event} {s' : Sched.Sys} (h : Agrees x a φ) (hq : Queue x.s.abs l)
    (hst : Sched.step x.s e = some s') :
    ∃ b, a.Step (label x (.sched e)) b ∧ Agrees { x with s := s' } b φ := by
  cases e with
  | spawn p top =>
    exact ⟨_, Posix.Step.spawn, h.joins (g := fun _ => none) hq hst rfl (fun _ => rfl) fun _ _ hn => nomatch hn⟩
  | spawnFromElf p top =>
    exact ⟨_, Posix.Step.spawn, h.joins (g := fun _ => none) hq hst rfl (fun _ => rfl) fun _ _ hn => nomatch hn⟩
  | fork p top =>
    have hl : Live x.s x.s.current := live_current hq (outside_schedule Sched.Event.noConfusion hst)
    have hj := h.joins hq hst rfl (fun _ => rfl) fun i f hf => ⟨x.s.current, i, hl, hf⟩
    rw [← h.fds hl] at hj
    exact ⟨_, Posix.Step.fork, hj⟩
  | _ => exact ⟨_, Posix.Step.other, h.stays hq hst rfl⟩

theorem lookup_file {target : Option Files.Inode} {block f : Ptr} (hf : f ≠ block) :
    (lookup x target block).file f = x.file f := by
  unfold lookup
  cases hv : vfsOpen x target block with
  | none => rfl
  | some y =>
    obtain ⟨g, x1⟩ := y
    obtain ⟨rfl, inode, rfl⟩ := vfsOpen_some hv
    exact Function.update_of_ne hf _ _

/-- **One step.** -/
theorem step_agrees {x' : Fs} (h : Agrees x a φ) (hi : Inv x) (hs : Files.step x e = some x') :
    ∃ b, a.Step (label x e) b ∧ ∃ ψ, Agrees x' b ψ := by
  obtain ⟨l, hq⟩ := hi.queue
  have hn : NoDangling x := safe_iff.1 hi.sound.toSafe
  by_cases hsched : ∃ e', e = .sched e'
  · obtain ⟨e', rfl⟩ := hsched
    obtain ⟨s', hst, rfl⟩ := Option.map_eq_some_iff.1 hs
    obtain ⟨b, hstep, hb⟩ := h.sched hq hst
    exact ⟨b, hstep, φ, hb⟩
  by_cases hlookup : ∃ target block, e = .lookup target block
  · obtain ⟨target, block, rfl⟩ := hlookup
    have hs' : (if block ∈ x.files then none else some (lookup x target block)) = some x' := hs
    split_ifs at hs' with hb
    cases hs'
    refine ⟨{ a with current := a.current }, Posix.Step.other, φ, h.over ?_ ?_ (fun f hf => ?_) rfl rfl⟩
    · rw [lookup_s]
      exact h.current
    · rw [lookup_s]
      exact h.table
    · have hf' : Held x f := by
        unfold Held at hf
        rw [lookup_s] at hf
        exact hf
      exact ⟨hf', lookup_file (held_ne hn hb hf')⟩
  obtain ⟨-, hsc, hb, r, hc⟩ := step_call (fun e' he => hsched ⟨e', he⟩)
    (fun target block he => hlookup ⟨target, block, he⟩) hs
  exact h.call hn (live_current hq hsc) hb hc

end Steps

/-! ## Runs -/

section Runs

variable {boot idle : Ptr} {top : U64} {m : Vmm.Machine} {cpu : Cpu} {es : List Files.Event} {x : Fs}

theorem init_agrees (hne : boot ≠ idle) : Agrees (Files.init boot idle top m cpu) (Posix.init boot) id := by
  have hnone : ∀ q, Live (Files.init boot idle top m cpu).s q → ∀ i f,
      ((Files.init boot idle top m cpu).s.tb.task q).fds i ≠ some f := by
    intro q hl i f hf
    have hmem : f ∈ ([] : List Ptr) := (Files.init_inv hne).sound.valid hl hf
    cases hmem
  have hempty : ∀ f, ¬ Held (Files.init boot idle top m cpu) f := by
    rintro f ⟨q, i, hl, hi⟩
    exact hnone q hl i f hi
  refine ⟨rfl, fun q hl i => ?_, fun f hf => absurd hf (hempty f), fun f hf => absurd hf (hempty f),
    fun f g hf => absurd hf (hempty f)⟩
  rw [Option.eq_none_iff_forall_ne_some.2 (hnone q hl i)]
  rfl

/-- **Open file descriptions.** In every run of all tasks from boot on in which no task closes a File that another live
task has open, each call returns and finds what it would with descriptions of their own: an offset made by open, shared by
fork, moved by read, lseek and getdents64 of whoever refers to it, and dropped by close from the caller's table alone. -/
theorem descriptions_refine (hne : boot ≠ idle) (hr : es.foldlM Files.step (Files.init boot idle top m cpu) = some x)
    (hu : Each Files.step Unshared (Files.init boot idle top m cpu) es) :
    ∃ a, Steps Posix.Step (Posix.init boot) (labels Files.step label (Files.init boot idle top m cpu) es) a ∧
      ∃ φ, Agrees x a φ := by
  have hsim : ∀ (x : Fs) (a : Posix) (e : Files.Event) (x' : Fs), (Inv x ∧ ∃ φ, Agrees x a φ) → Unshared x e →
      Files.step x e = some x' → ∃ b, a.Step (label x e) b ∧ Inv x' ∧ ∃ φ, Agrees x' b φ := by
    rintro x a e x' ⟨hi, φ, h⟩ hun hs
    obtain ⟨b, hstep, hb⟩ := step_agrees h hi hs
    exact ⟨b, hstep, step_inv hi hun hs, hb⟩
  obtain ⟨a, hsteps, -, hφ⟩ := forward_run hsim ⟨Files.init_inv hne, id, init_agrees hne⟩ hu hr
  exact ⟨a, hsteps, hφ⟩

/-- without a close, nothing is shared and closed -/
theorem unshared_of_open (h : ∀ e ∈ es, ∀ fd, e ≠ .close fd) : Each Files.step Unshared x es := by
  induction es generalizing x with
  | nil => trivial
  | cons e es ih =>
    refine ⟨?_, fun _ _ => ih fun e' he' => h e' (List.mem_cons_of_mem _ he')⟩
    have hno := h e (List.mem_cons_self ..)
    cases e with
    | close fd => exact absurd rfl (hno fd)
    | _ => trivial

/-- parent and child read one after the other -/
def sharedReads : List Files.Event := opensAndForks ++ [.read 3 4, .sched .yield, .sched .switch, .read 3 6]

theorem descriptions_refine_shared : ∃ x a, sharedReads.foldlM Files.step booted = some x ∧
    Steps Posix.Step (Posix.init 1) (labels Files.step label booted sharedReads) a ∧ ∃ φ, Agrees x a φ := by
  have hrun : (sharedReads.foldlM Files.step booted).isSome = true := by decide +kernel
  obtain ⟨x, hx⟩ := Option.isSome_iff_exists.1 hrun
  have hopen : ∀ e ∈ sharedReads, ∀ fd, e ≠ .close fd := by
    simp [sharedReads, opensAndForks]
  obtain ⟨a, hsteps, hφ⟩ := descriptions_refine (by decide) hx (unshared_of_open hopen)
  exact ⟨x, a, hx, hsteps, hφ⟩

end Runs

end Retux.Descriptions
