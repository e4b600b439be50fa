/-
`execve` (`sys_execve` in `task/user.cpp`) on the whole memory system: the kernel heap, the frames, the tables, the ELF
loader and the initial stack.

The new image is put together in an address space of its own, with the caller's strings and the file in heap blocks, and
a failure puts everything back. File systems are a parameter: what they do to memory on the way (`DriverOp`: blocks of
their own, stores, bounce frames) and what they find. Strings and file contents are values; the blocks that hold them
are the heap's. Ghosts: `drivers`, the blocks the file systems have, and `grown`, the frames the heap took since entry.

- `Staged`: what holds at every point until one of the two spaces is given up;
- `copyStrings_staged`, `elfLoad_staged`, `mapStack_staged`: the phases.
-/
import Mathlib.Tactic
import Retux.Task.Account
import Retux.Task.Stack

namespace Retux.Execve

open Retux.Word Retux.Bytes Retux.Pmm Retux.Vmm Retux.Run Retux.Elf Retux.User Retux.Sys Retux.Views Retux.Sched

/-! ## Model -/

/-- what a file system does while it serves a call -/
inductive DriverOp where
  | kmalloc (size : U64)
  | kfree (p : U64)
  | store (p : U64) (i : ℕ) (x : U64)
  | bounce (g : Idx → U64)

/-- a file: i_size, contents, and what the driver does while it reads them into a buffer -/
structure Node where
  size : U64
  data : Mb2.Bytes
  reads : U64 → List DriverOp
  /-- no read returned 0 or an error before the end -/
  complete : Bool

/-- `lookup_path` below the mount of a path -/
structure Lookup where
  ops : List DriverOp
  node : Option Node

structure Sys where
  k : Kernel
  self : Task
  drivers : List U64
  grown : Set ℕ

def ENOENT : U64 := 2
def E2BIG : U64 := 7

/-- `sizeof(vfs::File)` -/
def SIZEOF_FILE : U64 := 24

namespace Sys

def act (s : Sys) (op : Views.Op) : Option Sys :=
  (apply s.k op).map fun k => { s with k := k, grown := s.grown ∪ taken s.k k op }

def setM (s : Sys) (m : Machine) : Sys := { s with k := s.k.setM m }

/-- `self->cr3 = cr3; mov cr3` -/
def switch (s : Sys) (cr3 : U64) : Sys :=
  { s with self := { s.self with cr3 := cr3 }, k := s.k.setM { s.k.m with cr3 := cr3 } }

/-- `destroy_address_space(cr3)` -/
def destroy (s : Sys) (cr3 : U64) : Sys :=
  { s with k := { s.k.setM (destroyAddressSpace cr3 s.k.m) with spaces := s.k.spaces.erase (frameOf cr3) } }

@[simp] theorem destroy_live (s : Sys) (cr3 : U64) : (s.destroy cr3).k.st.live = s.k.st.live := by
  simp only [destroy, Kernel.setM]

@[simp] theorem destroy_drivers (s : Sys) (cr3 : U64) : (s.destroy cr3).drivers = s.drivers := by simp only [destroy]

@[simp] theorem destroy_grown (s : Sys) (cr3 : U64) : (s.destroy cr3).grown = s.grown := by simp only [destroy]

end Sys

def kmalloc (size : U64) (s : Sys) : Option (U64 × Sys) :=
  match s.k.st.heap.kmalloc size with
  | .error _ => none
  | .ok (p, _) => (s.act (.kmalloc size)).map fun s => (p, s)

def kfree (p : U64) (s : Sys) : Option Sys := s.act (.kfree p)

/-- blocks a driver frees are its own -/
def drive (s : Sys) : DriverOp → Option Sys
  | .kmalloc size => (kmalloc size s).map fun (p, s) => if p = 0 then s else { s with drivers := p :: s.drivers }
  | .kfree p =>
    if p ∈ s.drivers then (kfree p s).map fun s => { s with drivers := s.drivers.erase p } else none
  | .store p i x => s.act (.store p i x)
  | .bounce g => s.act (.bounce g)

/-- `vfs::open`: the File block and the inode -/
def vfsOpen (l : Lookup) (s : Sys) : Option (Option (U64 × Node) × Sys) := do
  let s ← l.ops.foldlM drive s
  match l.node with
  | none => return (none, s)
  | some node =>
    let (file, s) ← kmalloc SIZEOF_FILE s
    return (if file = 0 then none else some (file, node), s)

def readWholeFile (node : Node) (s : Sys) : Option (Option U64 × Sys) := do
  let (buf, s) ← kmalloc (node.size + 1) s
  if buf = 0 then return (none, s)
  let s ← (node.reads buf).foldlM drive s
  if node.complete then return (some buf, s)
  let s ← kfree buf s
  return (none, s)

/-- `elf::load` -/
def elfLoad (l : Lookup) (s : Sys) : Option (Option LoadResult × Sys) := do
  let (file, s) ← vfsOpen l s
  match file with
  | none => return (none, s)
  | some (file, node) =>
    let (data, s) ← readWholeFile node s
    let s ← kfree file s
    match data with
    | none => return (none, s)
    | some data =>
      let (m, r) ← parseAndLoad node.data node.size s.k.m
      let s ← kfree data (s.setM m)
      return (r.toOption, s)

/-- the copies of argv or envp -/
def copyStrings : List KString → Sys → Option (List U64 × Sys)
  | [], s => some ([], s)
  | x :: xs, s => do
    let (copy, s) ← kmalloc (x.strlen + 1) s
    let (copies, s) ← copyStrings xs s
    return (copy :: copies, s)

def freeCopies (copies : List U64) (s : Sys) : Option Sys := copies.foldlM (fun s copy => kfree copy s) s

/-- a heap that has given one block -/
def oneBlock (n p : U64) : User.Heap where
  kmalloc k := if k = n ∧ HEAP_VIRT_BASE ≤ p ∧ p.toNat + n.toNat ≤ User.HEAP_MAX.toNat then some p else none
  window := by
    intro k q _ hk
    split_ifs at hk with h
    obtain rfl := Option.some.inj hk
    obtain ⟨rfl, hlo, hhi⟩ := h
    exact ⟨hlo, hhi⟩

/-- `build_linux_stack` with its scratch block; b is what the block holds before -/
def buildStack (b : Mem) (tsc : U64) (result : LoadResult) (argv envp : List KString) (s : Sys) :
    Option (U64 × Sys) := do
  let (scratch, s) ← kmalloc (total argv envp) s
  if scratch = 0 then return (0, s)
  let (rsp, m) ← buildLinuxStack (oneBlock (total argv envp) scratch) b tsc result argv envp s.k.m
  let s ← kfree scratch (s.setM m)
  return (rsp, s)

inductive Ret where
  | errno (e : U64)
  | ring3 (rip rsp : U64)
deriving DecidableEq

/-- the copy of the path; for a longer one `strncpy` does not come back -/
def copyPath (path : KString) : Option (List U8) := if path.chars.length < 128 then some path.chars else none

/-- fs is what the path leads to; argv and envp are none for a null pointer -/
def sysExecve (fs : List U8 → Lookup) (b : Mem) (tsc : U64) (path : KString) (argv envp : Option (List KString))
    (s : Sys) : Option (Ret × Sys) := do
  let path ← copyPath path
  let argv := (argv.getD []).take MAX_ARGC
  let envp := (envp.getD []).take MAX_ENVC
  let (argvK, s) ← copyStrings argv s
  let (envpK, s) ← copyStrings envp s
  let oldCr3 := s.self.cr3
  let (newCr3, _) ← createAddressSpace s.k.m
  let s ← s.act .create
  let s := s.switch newCr3
  let (result, s) ← elfLoad (fs path) s
  match result with
  | none =>
    let s := (s.switch oldCr3).destroy newCr3
    let s ← freeCopies (argvK ++ envpK) s
    return (.errno (-ENOENT), s)
  | some result =>
    let m ← mapStack s.k.m
    let s := s.setM m
    let brk := result.highestAddr
    let s := { s with self := { s.self with brkStart := brk, brkCur := brk, mmapNext := LINUX_MMAP_BASE } }
    let (rsp, s) ← buildStack b tsc result argv envp s
    let s ← freeCopies (argvK ++ envpK) s
    if rsp = 0 then return (.errno (-E2BIG), (s.switch oldCr3).destroy newCr3)
    else return (.ring3 result.entry rsp, if oldCr3 = 0 then s else s.destroy oldCr3)

/-! ## What holds on the way -/

/-- a page of an executable, after the round of the load that mapped it -/
def filePage (data : Mb2.Bytes) (x : Phdr × U64) : Page := ⟨segFlags x.1, pageWords (pageByte data x.1 x.2)⟩

/-- the pages of a file laid over V in the order of the load -/
def lay (data : Mb2.Bytes) (l : List (Phdr × U64)) (V : Space) : Space :=
  l.foldl (fun V x => put V x.2 (some (filePage data x))) V

/-- what `parse_and_load` answers, from the file alone -/
def parsed (data : Mb2.Bytes) (size : U64) : Option LoadResult :=
  match checkHeader data size with
  | .error _ => none
  | .ok eh => (outcome size eh (phdrs data eh) 0 0).map fun x : U64 × U64 =>
      ⟨eh.entry, x.1, eh.phnum, eh.phentsize, x.2⟩

/-- the program a path leads to -/
def program (l : Lookup) : Option (Node × LoadResult) :=
  l.node.bind fun node : Node =>
    if node.size + 1 ≠ 0 ∧ node.complete then (parsed node.data node.size).map fun result => (node, result) else none

/-- the pages of the file are private, and no page is mapped twice, the stack included -/
structure Separate (node : Node) : Prop where
  isPrivate : ∀ x ∈ mapped node.data node.size, isPrivate x.2 = true
  once : ((mapped node.data node.size).map fun x : Phdr × U64 => pathOf x.2).Nodup
  stack : ∀ x ∈ mapped node.data node.size, ∀ i < LINUX_STACK_PAGES, pathOf x.2 ≠ pathOf (stackPage i)

/-- s0 is the state at entry; self is t, CR3 is c, the live spaces are those of s0 and ns, which looks like V. All other
spaces are as they were, no frame is lost, and of the heap's blocks mine are new -/
structure Staged (s0 : Sys) (base : List U64) (t : Task) (c : U64) (ns : List ℕ) (V : Space) (mine : List U64)
    (s : Sys) : Prop where
  good : Good s.k
  self : s.self = t
  cr3 : s.k.m.cr3 = c
  spaces : s.k.spaces = ns ++ s0.k.spaces
  unseen : Unseen s0.k.spaces s0.k.m s.k.m
  out : ∀ f, Outside s.k.m s.k.spaces f ↔ Outside s0.k.m s0.k.spaces f ∨ f ∈ s.grown
  seen : ∀ r ∈ ns, view s.k.m r = V
  live : s.k.st.live.Perm (mine ++ (s.drivers ++ base))

section Calls

variable {s0 s s' : Sys} {base mine ps : List U64} {t : Task} {c p size : U64} {ns : List ℕ} {V : Space} {k : Kernel}
  {op : Views.Op} {r : ℕ}

/-- operations of the heap and the drivers -/
def Calm : Views.Op → Prop
  | .kmalloc _ => True
  | .kfree _ => True
  | .store .. => True
  | .bounce _ => True
  | _ => False

theorem calm_apply {k k' : Kernel} (h : Good k) (hq : Calm op) (hs : apply k op = some k') :
    k'.spaces = k.spaces ∧ k'.m.cr3 = k.m.cr3 ∧ displaced k op = ∅ ∧ ∀ x, ¬ OnSpace k x op := by
  have hheap : ∀ {st' : Heap.St} {e : Heap.Event}, (∀ m, e ≠ .other m) → Heap.step k.st e = some st' →
      st'.heap.m.cr3 = k.m.cr3 := by
    intro st' e he hst
    obtain ⟨l, hl, hg⟩ := Heap.step_pages h.tidy he hst
    exact (h.ready.grow hl hg).2.2.1
  cases op with
  | kmalloc size =>
    obtain ⟨st, hst, rfl⟩ := Option.map_eq_some_iff.1 hs
    exact ⟨rfl, hheap (fun _ hh => by cases hh) hst, rfl, fun _ hh => hh⟩
  | kfree p =>
    obtain ⟨st, hst, rfl⟩ := Option.map_eq_some_iff.1 hs
    exact ⟨rfl, hheap (fun _ hh => by cases hh) hst, rfl, fun _ hh => hh⟩
  | store p i x =>
    obtain ⟨st, hst, rfl⟩ := Option.map_eq_some_iff.1 hs
    exact ⟨rfl, hheap (fun _ hh => by cases hh) hst, rfl, fun _ hh => hh⟩
  | bounce g =>
    obtain ⟨⟨a, m1⟩, ha, rfl⟩ := Option.map_eq_some_iff.1 hs
    exact ⟨rfl, (h.ready.bounce g ha).2.2.1, rfl, fun _ hh => hh⟩
  | take g => exact absurd hq id
  | create => exact absurd hq id
  | load r => exact absurd hq id
  | loadKernel => exact absurd hq id
  | edit e => exact absurd hq id
  | clone d r => exact absurd hq id
  | destroy r => exact absurd hq id

theorem Staged.old (h : Staged s0 base t c ns V mine s) {x : ℕ} (hx : x ∈ s0.k.spaces) : x ∈ s.k.spaces := by
  rw [h.spaces]
  exact List.mem_append_right _ hx

theorem Staged.new (h : Staged s0 base t c ns V mine s) (hr : r ∈ ns) : r ∈ s.k.spaces := by
  rw [h.spaces]
  exact List.mem_append_left _ hr

/-- an operation on no space -/
theorem Staged.calm (h : Staged s0 base t c ns V ps s) (hs : apply s.k op = some k) (hq : Calm op)
    (hk : s'.k = k) (hself : s'.self = s.self) (hgrown : s'.grown = s.grown ∪ taken s.k k op)
    (hlive : k.st.live.Perm (mine ++ (s'.drivers ++ base))) : Staged s0 base t c ns V mine s' := by
  obtain ⟨hsp, hc, hd, hon⟩ := calm_apply h.good hq hs
  subst hk
  refine ⟨(apply_step h.good hs).1, hself.trans h.self, hc.trans h.cr3, hsp.trans h.spaces,
    h.unseen.trans (apply_unseen h.good hs fun x hx => ⟨h.old hx, hon x⟩).1, fun f => ?_, fun r hr => ?_, hlive⟩
  · rw [apply_outside h.good hs, h.out, hgrown, hd, Set.mem_union]
    simp only [Set.mem_empty_iff_false, false_or, or_assoc]
  · rw [← h.seen r hr]
    exact unseen_view (apply_unseen h.good hs fun x hx => ⟨h.new hx, hon x⟩).1 hr

theorem Staged.perm (h : Staged s0 base t c ns V mine s) (hp : mine.Perm ps) : Staged s0 base t c ns V ps s :=
  ⟨h.good, h.self, h.cr3, h.spaces, h.unseen, h.out, h.seen, h.live.trans (hp.append_right _)⟩

theorem Staged.nodup (h : Staged s0 base t c ns V mine s) : (mine ++ (s.drivers ++ base)).Nodup := by
  obtain ⟨cs, -, O, -⟩ := h.good.tidy
  exact h.live.nodup_iff.1 O.nodup

/-! ### The heap -/

theorem kmalloc_spec (hk : kmalloc size s = some (p, s')) : ∃ k, apply s.k (.kmalloc size) = some k ∧
    s' = { s with k := k, grown := s.grown ∪ taken s.k k (.kmalloc size) } ∧
    k.st.live = if p = 0 then s.k.st.live else p :: s.k.st.live := by
  unfold kmalloc at hk
  cases hh : s.k.st.heap.kmalloc size with
  | error e =>
    rw [hh] at hk
    cases hk
  | ok x =>
    obtain ⟨q, h⟩ := x
    rw [hh] at hk
    obtain ⟨s1, hs1, heq⟩ := Option.map_eq_some_iff.1 hk
    obtain ⟨rfl, rfl⟩ := Prod.mk.inj heq
    obtain ⟨k, hka, rfl⟩ := Option.map_eq_some_iff.1 hs1
    refine ⟨k, hka, rfl, ?_⟩
    obtain ⟨st, hst, rfl⟩ := Option.map_eq_some_iff.1 hka
    unfold Heap.step at hst
    simp only [hh, Option.some.injEq] at hst
    rw [← hst]

/-- a block for at least one byte, or a halt -/
theorem kmalloc_ne_zero (h : Good s.k) (hn : size ≠ 0) (hk : kmalloc size s = some (p, s')) : p ≠ 0 := by
  unfold kmalloc at hk
  cases hh : s.k.st.heap.kmalloc size with
  | error e =>
    rw [hh] at hk
    cases hk
  | ok x =>
    obtain ⟨q, h'⟩ := x
    rw [hh] at hk
    obtain ⟨s1, -, heq⟩ := Option.map_eq_some_iff.1 hk
    obtain ⟨rfl, -⟩ := Prod.mk.inj heq
    obtain ⟨cs, H, -⟩ := h.tidy
    obtain ⟨-, x, d, rfl, -, hx, -⟩ := Heap.kmalloc_spec H hn hh
    exact Heap.ptr_ne_zero (by omega)

theorem kmalloc_zero (hk : kmalloc 0 s = some (p, s')) : p = 0 := by
  unfold kmalloc at hk
  have hh : s.k.st.heap.kmalloc 0 = .ok (0, s.k.st.heap) := rfl
  rw [hh] at hk
  obtain ⟨s1, -, heq⟩ := Option.map_eq_some_iff.1 hk
  exact (Prod.mk.inj heq).1.symm

theorem Staged.kmalloc (h : Staged s0 base t c ns V mine s) (hk : kmalloc size s = some (p, s')) :
    Staged s0 base t c ns V (if p = 0 then mine else p :: mine) s' := by
  obtain ⟨k, hka, rfl, hlive⟩ := kmalloc_spec hk
  refine h.calm hka trivial rfl rfl rfl ?_
  rw [hlive]
  split_ifs
  · exact h.live
  · exact h.live.cons p

theorem kfree_spec (hk : kfree p s = some s') : ∃ k, apply s.k (.kfree p) = some k ∧
    s' = { s with k := k, grown := s.grown ∪ taken s.k k (.kfree p) } ∧ k.st.live = s.k.st.live.erase p := by
  obtain ⟨k, hka, rfl⟩ := Option.map_eq_some_iff.1 hk
  refine ⟨k, hka, rfl, ?_⟩
  obtain ⟨st, hst, rfl⟩ := Option.map_eq_some_iff.1 hka
  unfold Heap.step at hst
  simp only at hst
  split_ifs at hst
  split at hst
  · cases hst
  · cases hst
    rfl

theorem Staged.kfree (h : Staged s0 base t c ns V (p :: mine) s) (hk : kfree p s = some s') :
    Staged s0 base t c ns V mine s' := by
  obtain ⟨k, hka, rfl, hlive⟩ := kfree_spec hk
  refine h.calm hka trivial rfl rfl rfl ?_
  rw [hlive]
  have he := h.live.erase p
  rwa [List.cons_append, List.erase_cons_head] at he

/-- whatever a file system does -/
theorem Staged.drive {o : DriverOp} (h : Staged s0 base t c ns V mine s) (hd : drive s o = some s') :
    Staged s0 base t c ns V mine s' := by
  cases o with
  | kmalloc size =>
    obtain ⟨⟨p, s1⟩, hk, heq⟩ := Option.map_eq_some_iff.1 hd
    obtain ⟨k, hka, rfl, hlive⟩ := kmalloc_spec hk
    simp only at heq
    split_ifs at heq with h0
    · rw [← heq]
      refine h.calm hka trivial rfl rfl rfl ?_
      rw [hlive, if_pos h0]
      exact h.live
    · rw [← heq]
      refine h.calm hka trivial rfl rfl rfl ?_
      rw [hlive, if_neg h0]
      exact (h.live.cons p).trans List.perm_middle.symm
  | kfree p =>
    simp only [Execve.drive] at hd
    split_ifs at hd with hp
    obtain ⟨s1, hk, rfl⟩ := Option.map_eq_some_iff.1 hd
    obtain ⟨k, hka, rfl, hlive⟩ := kfree_spec hk
    refine h.calm hka trivial rfl rfl rfl ?_
    have hnot : p ∉ mine := fun hm => (List.nodup_append.1 h.nodup).2.2 p hm p (List.mem_append_left _ hp) rfl
    have he := h.live.erase p
    rw [List.erase_append_right _ hnot, List.erase_append_left _ hp] at he
    rw [hlive]
    exact he
  | store p i x =>
    obtain ⟨k, hka, rfl⟩ := Option.map_eq_some_iff.1 hd
    refine h.calm hka trivial rfl rfl rfl ?_
    obtain ⟨st, hst, rfl⟩ := Option.map_eq_some_iff.1 hka
    unfold Heap.step at hst
    simp only at hst
    split_ifs at hst
    cases hst
    exact h.live
  | bounce g =>
    obtain ⟨k, hka, rfl⟩ := Option.map_eq_some_iff.1 hd
    refine h.calm hka trivial rfl rfl rfl ?_
    obtain ⟨⟨a, m1⟩, -, rfl⟩ := Option.map_eq_some_iff.1 hka
    exact h.live

theorem Staged.drives {os : List DriverOp} (h : Staged s0 base t c ns V mine s)
    (hd : os.foldlM Execve.drive s = some s') : Staged s0 base t c ns V mine s' :=
  run_inv (fun _ _ _ hs hd => hs.drive hd) h hd

theorem copyStrings_staged {ss : List KString} (h : Staged s0 base t c ns V mine s)
    (hs : copyStrings ss s = some (ps, s')) : Staged s0 base t c ns V (ps ++ mine) s' := by
  induction ss generalizing s mine ps with
  | nil =>
    cases hs
    exact h
  | cons x xs ih =>
    simp only [copyStrings, bind, Option.bind_eq_some_iff, pure, Option.some.injEq, Prod.mk.injEq] at hs
    obtain ⟨⟨p, s1⟩, hk, ⟨qs, s2⟩, hrest, rfl, rfl⟩ := hs
    have hne : x.strlen + 1 ≠ 0 := by
      intro h0
      have := congrArg BitVec.toNat h0
      have hshort := x.short
      simp only [KString.strlen, BitVec.toNat_add, BitVec.toNat_ofNat, BitVec.reduceToNat] at this
      omega
    have hp := kmalloc_ne_zero h.good hne hk
    have h1 := h.kmalloc hk
    rw [if_neg hp] at h1
    exact (ih h1 hrest).perm List.perm_middle

theorem freeCopies_staged (h : Staged s0 base t c ns V (ps ++ mine) s) (hs : freeCopies ps s = some s') :
    Staged s0 base t c ns V mine s' := by
  induction ps generalizing s with
  | nil =>
    cases hs
    exact h
  | cons p ps ih =>
    unfold freeCopies at hs
    rw [List.foldlM_cons] at hs
    obtain ⟨s1, hk, hrest⟩ := Option.bind_eq_some_iff.1 hs
    exact ih (h.kfree hk) hrest

end Calls

/-! ### The new space -/

section Space

variable {s0 s s' : Sys} {base mine : List U64} {t : Task} {v fl a : U64} {V V' : Space} {r : ℕ} {m' : Machine}
  {data : Mb2.Bytes} {ph : Phdr}

theorem put_on {p : Option Page} {w : U64} (hw : pathOf w = pathOf v) : put V v p w = p := if_pos hw

theorem put_off {p : Option Page} {w : U64} (hw : pathOf w ≠ pathOf v) : put V v p w = V w := if_neg hw

theorem put_put (V : Space) (v : U64) (p q : Option Page) : put (put V v p) v q = put V v q := by
  funext w
  unfold put
  split_ifs
  · rfl
  · rfl

/-- the new space is loaded -/
theorem Staged.root (h : Staged s0 base t (addrOf r) [r] V mine s) : getPml4 s.k.m = r := by
  rw [getPml4, h.cr3]
  exact (h.good.ready.load (h.new (List.mem_singleton_self r))).2

/-- an edit that displaces nothing -/
theorem Staged.edit {e : Edit} (h : Staged s0 base t (addrOf r) [r] V mine s) (he : e.apply s.k.m = some m')
    (hd : editDisplaced s.k.m e = ∅) :
    ∃ V', Edited V e V' ∧ Staged s0 base t (addrOf r) [r] V' mine (s.setM m') := by
  have hroot := h.root
  have hin : getPml4 s.k.m ∈ s.k.spaces := by
    rw [hroot]
    exact h.new (List.mem_singleton_self r)
  have hs : apply s.k (.edit e) = some (s.k.setM m') := by
    simp only [Views.apply]
    rw [if_pos hin, he]
    rfl
  have hother : ∀ x ∈ s0.k.spaces, x ∈ s.k.spaces ∧ ¬ OnSpace s.k x (.edit e) := by
    intro x hx
    refine ⟨h.old hx, fun hon => ?_⟩
    have hnd := ready_nodup h.good.ready
    rw [h.spaces] at hnd
    have hxr : r = x := hroot.symm.trans hon
    exact (List.nodup_cons.1 hnd).1 (hxr ▸ hx)
  obtain ⟨-, hc, -, hedit⟩ := edit_space h.good.ready hin he
  rw [hroot, h.seen r (List.mem_singleton_self r)] at hedit
  refine ⟨_, hedit, (apply_step h.good hs).1, h.self, hc.trans h.cr3, h.spaces,
    h.unseen.trans (apply_unseen h.good hs hother).1, fun f => ?_, fun x hx => ?_, h.live⟩
  · have hout := apply_outside h.good hs f
    simp only [displaced, hd, taken, Set.mem_empty_iff_false, or_false] at hout
    exact hout.trans (h.out f)
  · rw [List.mem_singleton.1 hx]
    rfl

/-- a page that was not there -/
theorem Staged.page (h : Staged s0 base t (addrOf r) [r] V mine s) (hv : isPrivate v = true) (hfl : LeafFlags fl)
    (hno : V v = none) (hm : mapFresh s.k.m v fl = some (a, m')) :
    ∃ d, Staged s0 base t (addrOf r) [r] (put V v (some ⟨fl, d⟩)) mine (s.setM m') ∧
      ∃ x, translate m'.mem r v = some x ∧ frameOf x.1 = frameOf a := by
  have hroot := h.root
  have he : (Edit.map v fl).apply s.k.m = some m' := by
    simp only [Edit.apply]
    rw [if_pos ⟨hv, hfl⟩, hm]
    rfl
  have hunmapped : backing s.k.m (getPml4 s.k.m) v = ∅ := by
    refine Set.eq_empty_of_forall_notMem fun f hf => ?_
    obtain ⟨x, hx, -⟩ := hf
    have hview : view s.k.m r v = none := by
      rw [h.seen r (List.mem_singleton_self r)]
      exact hno
    unfold Views.view at hview
    rw [if_pos hv, ← hroot, hx] at hview
    cases hview
  obtain ⟨V', hedit, hst⟩ := h.edit he hunmapped
  cases hedit with
  | map _ =>
    refine ⟨_, hst, ?_⟩
    obtain ⟨K, H, hz, L, X, hist, -⟩ := h.good.ready
    have ho := (hist.roots _).1 (h.new (List.mem_singleton_self r))
    have htr := mapFresh_translate hist.inv (hroot.symm ▸ ho) hv hfl hm hv
    rw [if_pos rfl, hroot] at htr
    obtain ⟨⟨a', m1⟩, ha, hm1⟩ := Option.bind_eq_some_iff.1 hm
    obtain ⟨m2, -, heq⟩ := Option.bind_eq_some_iff.1 hm1
    obtain ⟨rfl, -⟩ := Prod.mk.inj (Option.some.inj heq)
    obtain ⟨c, rfl, hlt, -⟩ := alloc_spec ha
    exact ⟨_, htr, by rw [(addrOf_add_offset hlt v).1, frameOf_addrOf hlt]⟩

/-- a page is filled -/
theorem Staged.fill (h : Staged s0 base t (addrOf r) [r] V mine s) (hv : isPrivate v = true) {x : U64 × U64}
    (hx : translate s.k.m.mem r v = some x) (g : Idx → U64) :
    ∃ p, V v = some p ∧
      Staged s0 base t (addrOf r) [r] (put V v (some ⟨p.flags, g⟩)) mine (s.setM (s.k.m.fill (frameOf x.1) g)) := by
  have he : (Edit.write v g).apply s.k.m = some (s.k.m.fill (frameOf x.1) g) := by
    simp only [Edit.apply]
    rw [if_pos hv, h.root, hx]
    rfl
  obtain ⟨V', hedit, hst⟩ := h.edit he rfl
  cases hedit with
  | write hp => exact ⟨_, hp, hst⟩

theorem Staged.loadPage (h : Staged s0 base t (addrOf r) [r] V mine s) (hv : isPrivate v = true) (hno : V v = none)
    (hl : Elf.loadPage data ph s.k.m v = some m') :
    Staged s0 base t (addrOf r) [r] (put V v (some (filePage data (ph, v)))) mine (s.setM m') := by
  obtain ⟨⟨a, m1⟩, hm, rfl⟩ := Option.map_eq_some_iff.1 hl
  obtain ⟨d, h1, x, hx, hframe⟩ := h.page hv (segFlags_leaf ph).1 hno hm
  obtain ⟨p, hp, h2⟩ := h1.fill hv hx (pageWords (pageByte data ph v))
  rw [put_on rfl] at hp
  obtain rfl := Option.some.inj hp
  rw [put_put, hframe] at h2
  exact h2

theorem Staged.lay {l : List (Phdr × U64)} (h : Staged s0 base t (addrOf r) [r] V mine s)
    (hpriv : ∀ x ∈ l, isPrivate x.2 = true) (hnd : (l.map fun x : Phdr × U64 => pathOf x.2).Nodup)
    (hno : ∀ x ∈ l, V x.2 = none) (hf : l.foldlM (fun m x => Elf.loadPage data x.1 m x.2) s.k.m = some m') :
    Staged s0 base t (addrOf r) [r] (Execve.lay data l V) mine (s.setM m') := by
  induction l generalizing s V with
  | nil =>
    cases hf
    exact h
  | cons x l ih =>
    rw [List.foldlM_cons] at hf
    obtain ⟨m1, h1, hrest⟩ := Option.bind_eq_some_iff.1 hf
    rw [List.map_cons, List.nodup_cons] at hnd
    have hst := h.loadPage (hpriv x List.mem_cons_self) (hno x List.mem_cons_self) h1
    have hfree : ∀ y ∈ l, put V x.2 (some (filePage data x)) y.2 = none := by
      intro y hy
      rw [put_off fun heq => hnd.1 (List.mem_map.2 ⟨y, hy, heq⟩)]
      exact hno y (List.mem_cons_of_mem x hy)
    have hrun := ih hst (fun y hy => hpriv y (List.mem_cons_of_mem x hy)) hnd.2 hfree hrest
    exact hrun

theorem lay_off {l : List (Phdr × U64)} {w : U64} (hw : ∀ x ∈ l, pathOf w ≠ pathOf x.2) : lay data l V w = V w := by
  induction l generalizing V with
  | nil => rfl
  | cons x l ih =>
    show lay data l (put V x.2 _) w = V w
    rw [ih fun y hy => hw y (List.mem_cons_of_mem x hy), put_off (hw x List.mem_cons_self)]

theorem parsed_eq {size : U64} {m : Machine} {ret : Except String LoadResult}
    (hp : parseAndLoad data size m = some (m', ret)) : ret.toOption = parsed data size := by
  unfold parseAndLoad at hp
  unfold parsed
  cases hc : checkHeader data size with
  | error e =>
    rw [hc] at hp
    cases hp
    rfl
  | ok eh =>
    rw [hc] at hp
    simp only [loadSegments_eq, Option.map_eq_some_iff] at hp
    obtain ⟨⟨m1, o⟩, ⟨m2, -, heq⟩, hres⟩ := hp
    obtain ⟨rfl, rfl⟩ := Prod.mk.inj heq
    simp only
    cases ho : outcome size eh (phdrs data eh) 0 0 with
    | none =>
      rw [ho] at hres
      cases hres
      rfl
    | some x =>
      rw [ho] at hres
      cases hres
      rfl

/-! ### The file -/

variable {c : U64} {ns : List ℕ} {l : Lookup} {node : Node}

theorem vfsOpen_staged {o : Option (U64 × Node)} (h : Staged s0 base t c ns V mine s)
    (ho : vfsOpen l s = some (o, s')) :
    (o = none ∧ l.node = none ∧ Staged s0 base t c ns V mine s') ∨
      ∃ file node, o = some (file, node) ∧ l.node = some node ∧ Staged s0 base t c ns V (file :: mine) s' := by
  obtain ⟨s1, hd, hrest⟩ := Option.bind_eq_some_iff.1 ho
  have h1 := h.drives hd
  cases hn : l.node with
  | none =>
    rw [hn] at hrest
    cases hrest
    exact Or.inl ⟨rfl, rfl, h1⟩
  | some node =>
    rw [hn] at hrest
    obtain ⟨⟨file, s2⟩, hk, heq⟩ := Option.bind_eq_some_iff.1 hrest
    have h0 : file ≠ 0 := kmalloc_ne_zero h1.good (by decide) hk
    have h2 := h1.kmalloc hk
    rw [if_neg h0] at h2
    simp only [if_neg h0, pure, Option.some.injEq, Prod.mk.injEq] at heq
    obtain ⟨rfl, rfl⟩ := heq
    exact Or.inr ⟨file, node, rfl, rfl, h2⟩

theorem readWholeFile_staged {o : Option U64} (h : Staged s0 base t c ns V mine s)
    (ho : readWholeFile node s = some (o, s')) :
    (o = none ∧ ¬ (node.size + 1 ≠ 0 ∧ node.complete = true) ∧ Staged s0 base t c ns V mine s') ∨
      ∃ buf, o = some buf ∧ (node.size + 1 ≠ 0 ∧ node.complete = true) ∧ Staged s0 base t c ns V (buf :: mine) s' := by
  obtain ⟨⟨buf, s1⟩, hk, hrest⟩ := Option.bind_eq_some_iff.1 ho
  have h1 := h.kmalloc hk
  by_cases h0 : buf = 0
  · rw [if_pos h0] at h1
    simp only [if_pos h0] at hrest
    cases hrest
    refine Or.inl ⟨rfl, fun hok => ?_, h1⟩
    exact kmalloc_ne_zero h.good hok.1 hk h0
  · rw [if_neg h0] at h1
    simp only [if_neg h0] at hrest
    obtain ⟨s2, hd, hrest⟩ := Option.bind_eq_some_iff.1 hrest
    have h2 := h1.drives hd
    have hsize : node.size + 1 ≠ 0 := fun hz => h0 (kmalloc_zero (hz ▸ hk))
    by_cases hc : node.complete = true
    · simp only [if_pos hc] at hrest
      cases hrest
      exact Or.inr ⟨buf, rfl, ⟨hsize, hc⟩, h2⟩
    · simp only [if_neg hc] at hrest
      obtain ⟨s3, hf, hrest⟩ := Option.bind_eq_some_iff.1 hrest
      cases hrest
      exact Or.inl ⟨rfl, fun hok => hc hok.2, h2.kfree hf⟩

/-- **The program is loaded.** The answer is the file's, and the new space holds its pages. -/
theorem elfLoad_staged {o : Option LoadResult}
    (h : Staged s0 base t (addrOf r) [r] (fun _ => none) mine s) (hsep : ∀ node, l.node = some node → Separate node)
    (ho : elfLoad l s = some (o, s')) : o = (program l).map Prod.snd ∧
      ∃ V, Staged s0 base t (addrOf r) [r] V mine s' ∧ (∀ i < LINUX_STACK_PAGES, V (stackPage i) = none) ∧
        ∀ node result, program l = some (node, result) →
          V = lay node.data (mapped node.data node.size) fun _ => none := by
  obtain ⟨⟨file, s1⟩, hopen, hrest⟩ := Option.bind_eq_some_iff.1 ho
  rcases vfsOpen_staged h hopen with ⟨rfl, hn, h1⟩ | ⟨file, node, rfl, hn, h1⟩
  · cases hrest
    have hp : program l = none := by
      unfold program
      rw [hn]
      rfl
    rw [hp]
    exact ⟨rfl, _, h1, fun _ _ => rfl, fun _ _ hh => by cases hh⟩
  obtain ⟨⟨data, s2⟩, hread, hrest⟩ := Option.bind_eq_some_iff.1 hrest
  obtain ⟨s3, hfile, hrest⟩ := Option.bind_eq_some_iff.1 hrest
  rcases readWholeFile_staged h1 hread with ⟨rfl, hbad, h2⟩ | ⟨data, rfl, hok, h2⟩
  · cases hrest
    have hp : program l = none := by
      unfold program
      rw [hn, Option.bind_some, if_neg hbad]
    rw [hp]
    exact ⟨rfl, _, h2.kfree hfile, fun _ _ => rfl, fun _ _ hh => by cases hh⟩
  have h3 := (h2.perm (List.Perm.swap _ _ _)).kfree hfile
  obtain ⟨⟨m, ret⟩, hload, hrest⟩ := Option.bind_eq_some_iff.1 hrest
  obtain ⟨s4, hdata, heq⟩ := Option.bind_eq_some_iff.1 hrest
  obtain ⟨rfl, rfl⟩ := Prod.mk.inj (Option.some.inj heq)
  have hs := hsep node hn
  have h4 := h3.lay hs.isPrivate hs.once (fun _ _ => rfl) (parseAndLoad_spec hload).1
  refine ⟨?_, _, h4.kfree hdata, fun i hi => ?_, fun node' result hp => ?_⟩
  · rw [parsed_eq hload]
    unfold program
    rw [hn, Option.bind_some, if_pos hok, Option.map_map]
    exact Option.map_id'.symm
  · rw [lay_off fun x hx => Ne.symm (hs.stack x hx i hi)]
  · unfold program at hp
    rw [hn, Option.bind_some, if_pos hok] at hp
    obtain ⟨x, -, heq⟩ := Option.map_eq_some_iff.1 hp
    obtain ⟨rfl, -⟩ := Prod.mk.inj heq
    rfl

/-! ### The stack -/

/-- V' is V with pages of the stack, the first k -/
structure Stacked (k : ℕ) (V V' : Space) : Prop where
  page : ∀ i < k, ∀ w, pathOf w = pathOf (stackPage i) → ∃ d, V' w = some ⟨USER_RW, d⟩
  off : ∀ w, (∀ i < k, pathOf w ≠ pathOf (stackPage i)) → V' w = V w

theorem stackPage_private {i : ℕ} (hi : i < LINUX_STACK_PAGES) : isPrivate (stackPage i) = true := by
  have hpage := stackPage_toNat hi
  have htop := top_toNat
  have hstack := stackBase_toNat
  unfold LINUX_STACK_PAGES at hi
  exact stack_private (by omega) (by omega)

theorem stackPage_inj {i j : ℕ} (hi : i < LINUX_STACK_PAGES) (hj : j < LINUX_STACK_PAGES)
    (hp : pathOf (stackPage i) = pathOf (stackPage j)) : i = j := by
  have h1 := stackPage_toNat hi
  have h2 := stackPage_toNat hj
  have hstack := stackBase_toNat
  unfold LINUX_STACK_PAGES at hi hj
  have haligned : ∀ k, k < 128 → (stackPage k).toNat = LINUX_STACK_BASE.toNat + k * 4096 →
      stackPage k &&& 0xFFF = 0 := fun k _ hk => aligned_offset (by rw [hk, hstack]; omega)
  have heq := path_inj (by omega) (by omega) hp ((haligned i hi h1).trans (haligned j hj h2).symm)
  have hnat := congrArg BitVec.toNat heq
  omega

theorem stackPages_staged {k : ℕ} (hk : k ≤ LINUX_STACK_PAGES) (h : Staged s0 base t (addrOf r) [r] V mine s)
    (hno : ∀ i < LINUX_STACK_PAGES, V (stackPage i) = none)
    (hm : (List.range k).foldlM (fun m i =>
      (mapFresh m (LINUX_STACK_BASE + BitVec.ofNat 64 i * 0x1000) USER_RW).map Prod.snd) s.k.m = some m') :
    ∃ V', Staged s0 base t (addrOf r) [r] V' mine (s.setM m') ∧ Stacked k V V' := by
  induction k generalizing m' with
  | zero =>
    cases hm
    exact ⟨V, h, ⟨fun i hi => absurd hi (Nat.not_lt_zero i), fun _ _ => rfl⟩⟩
  | succ k ih =>
    rw [List.range_succ, List.foldlM_append] at hm
    obtain ⟨m1, h1, hlast⟩ := Option.bind_eq_some_iff.1 hm
    obtain ⟨m2, hround, heq⟩ := Option.bind_eq_some_iff.1 hlast
    cases heq
    obtain ⟨⟨a, m2⟩, hmap, rfl⟩ := Option.map_eq_some_iff.1 hround
    obtain ⟨V1, hst, hV⟩ := ih (Nat.le_of_succ_le hk) h1
    have hfree : V1 (stackPage k) = none := by
      rw [hV.off _ fun i hi heq => Nat.ne_of_gt hi (stackPage_inj hk (Nat.lt_trans hi hk) heq)]
      exact hno k hk
    obtain ⟨d, h2, -⟩ := hst.page (stackPage_private hk) userRw_leaf hfree hmap
    refine ⟨_, h2, ⟨fun i hi w hw => ?_, fun w hw => ?_⟩⟩
    · by_cases hik : i = k
      · exact ⟨d, put_on (by rw [hw, hik])⟩
      · obtain ⟨d', hd'⟩ := hV.page i (by omega) w hw
        refine ⟨d', ?_⟩
        rw [put_off fun heq => hik (stackPage_inj (by omega) hk (hw.symm.trans heq))]
        exact hd'
    · rw [put_off (hw k (Nat.lt_succ_self k))]
      exact hV.off w fun i hi => hw i (Nat.lt_succ_of_lt hi)

theorem mapStack_staged (h : Staged s0 base t (addrOf r) [r] V mine s)
    (hno : ∀ i < LINUX_STACK_PAGES, V (stackPage i) = none) (hm : mapStack s.k.m = some m') :
    ∃ V', Staged s0 base t (addrOf r) [r] V' mine (s.setM m') ∧ Stacked LINUX_STACK_PAGES V V' :=
  stackPages_staged le_rfl h hno hm

end Space

end Retux.Execve
