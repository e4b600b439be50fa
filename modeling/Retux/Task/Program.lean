/-
What `execve` comes to: the caller's image is replaced, or nothing has happened.

- `execve_returns`: with room in frames and heap, a call comes to an end;
- `execve_fails`: a call that returns leaves everything as it was, `brk` and `mmap_next` apart where it got that far;
- `execve_commits`: a call that does not has put the file's pages, a stack that decodes to the arguments, and nothing
  else into a space of its own, given back the old one and its own blocks, and left every other space alone.
-/
import Mathlib.Tactic
import Retux.Task.Replace

namespace Retux.Execve

open Retux.Word Retux.Bytes Retux.Pmm Retux.Vmm Retux.Run Retux.SysV Retux.Elf Retux.User Retux.Sys Retux.Views
open Retux.Sched

/-! ## With room -/

/-- frames and heap for n more requests -/
structure Room (n : ℕ) (s : Sys) : Prop where
  frames : 100 * n ≤ freeCount s.k.m.pmm
  heap : s.k.st.heap.heapEnd.toNat + 2 ^ 17 * n ≤ Vmm.HEAP_MAX.toNat

section Room

variable {s s' : Sys} {base mine ps : List U64} {t : Task} {c p size : U64} {ns : List ℕ} {V : Space} {r r0 n : ℕ} {s0 : Sys}
  {m m' : Machine}

theorem Room.mono {k : ℕ} (h : Room n s) (hk : k ≤ n) : Room k s :=
  ⟨le_trans (Nat.mul_le_mul_left _ hk) h.frames, le_trans (Nat.add_le_add_left (Nat.mul_le_mul_left _ hk) _) h.heap⟩

/-- freeing needs none -/
theorem Room.zero (ht : Heap.Tidy s.k.st) : Room 0 s := by
  obtain ⟨cs, H, -⟩ := ht
  exact ⟨Nat.zero_le _, H.bounds.2⟩

/-- a change of tables and frames -/
theorem Room.cost {d : ℕ} (h : Room (n + d) s) (hm : freeCount s.k.m.pmm ≤ freeCount m.pmm + 100 * d) :
    Room n (s.setM m) := by
  have h1 := h.frames
  have h2 := h.heap
  refine ⟨?_, ?_⟩
  · show 100 * n ≤ freeCount m.pmm
    omega
  · show s.k.st.heap.heapEnd.toNat + _ ≤ _
    omega

theorem kmalloc_ok {h' : Retux.Heap} (hk : s.k.st.heap.kmalloc size = .ok (p, h')) :
    ∃ s', Execve.kmalloc size s = some (p, s') ∧ s'.k.st.heap = h' := by
  have hstep : Heap.step s.k.st (.kmalloc size) = some ⟨h', if p = 0 then s.k.st.live else p :: s.k.st.live⟩ := by
    unfold Heap.step
    simp only [hk]
  obtain ⟨k, hka, hkh⟩ : ∃ k, apply s.k (.kmalloc size) = some k ∧ k.st.heap = h' := by
    unfold Views.apply
    simp only [hstep, Option.map_some]
    exact ⟨_, rfl, rfl⟩
  refine ⟨{ s with k := k, grown := s.grown ∪ taken s.k k (.kmalloc size) }, ?_, hkh⟩
  unfold Execve.kmalloc Sys.act
  simp only [hk, hka, Option.map_some]

theorem kfree_ok {h' : Retux.Heap} (hp : p ∈ s.k.st.live) (hk : s.k.st.heap.kfree p = .ok h') :
    ∃ s', Execve.kfree p s = some s' ∧ s'.k.st.heap = h' := by
  have hstep : Heap.step s.k.st (.kfree p) = some ⟨h', s.k.st.live.erase p⟩ := by
    unfold Heap.step
    simp only
    rw [if_pos (Or.inr hp)]
    simp only [hk]
  obtain ⟨k, hka, hkh⟩ : ∃ k, apply s.k (.kfree p) = some k ∧ k.st.heap = h' := by
    unfold Views.apply
    simp only [hstep, Option.map_some]
    exact ⟨_, rfl, rfl⟩
  refine ⟨{ s with k := k, grown := s.grown ∪ taken s.k k (.kfree p) }, ?_, hkh⟩
  unfold Execve.kfree Sys.act
  simp only [hka, Option.map_some]

theorem Room.kmalloc (h : Room (n + 1) s) (hg : Views.Good s.k) (hs : size ≠ 0) (hsmall : size.toNat ≤ 2 ^ 16) :
    ∃ p s', Execve.kmalloc size s = some (p, s') ∧ Room n s' := by
  have h1 : 100 * (n + 1) ≤ freeCount s.k.st.heap.m.pmm := h.frames
  have h2 := h.heap
  have hz : used s.k.st.heap.m 0 = true := by
    obtain ⟨K, H, hz, L, X, hist, -⟩ := hg.ready
    exact hist.inv.zero
  obtain ⟨cs, H, -⟩ := hg.tidy
  have hend : s.k.st.heap.heapEnd.toNat + 2 ^ 17 ≤ Vmm.HEAP_MAX.toNat := by
    refine le_trans (Nat.add_le_add_left ?_ _) h2
    exact Nat.le_mul_of_pos_right _ (Nat.succ_pos n)
  obtain ⟨p, h', hk, hcost, hend'⟩ := Heap.kmalloc_room H hs hsmall hz (by omega) hend
  obtain ⟨s', hs', hheap⟩ := kmalloc_ok hk
  refine ⟨p, s', hs', ?_, ?_⟩
  · show 100 * n ≤ freeCount s'.k.st.heap.m.pmm
    rw [hheap]
    omega
  · rw [hheap]
    omega

theorem Room.kfree (h : Room n s) (ht : Heap.Tidy s.k.st) (hp : p ∈ s.k.st.live) :
    ∃ s', Execve.kfree p s = some s' ∧ Room n s' := by
  obtain ⟨cs, H, O, -⟩ := ht
  obtain ⟨o, d, hd, hptr⟩ := (O.mem p).1 hp
  obtain ⟨h', -, hk, -⟩ := Heap.kfree_spec H hd.1 hd.2
  rw [← hptr] at hk
  have hkeep := Heap.kfree_keeps hk
  obtain ⟨s', hs', hheap⟩ := kfree_ok hp hk
  refine ⟨s', hs', ?_, ?_⟩
  · show 100 * n ≤ freeCount s'.k.st.heap.m.pmm
    rw [hheap, hkeep.1]
    exact h.frames
  · rw [hheap, hkeep.2]
    exact h.heap

theorem copyStrings_room {ss : List KString} (h : Staged s0 base t c ns V mine s) (hr : Room (n + ss.length) s)
    (hsmall : ∀ x ∈ ss, x.chars.length < 2 ^ 16) : ∃ ps s', copyStrings ss s = some (ps, s') ∧ Room n s' := by
  induction ss generalizing s mine with
  | nil => exact ⟨[], s, rfl, hr⟩
  | cons x xs ih =>
    rw [List.length_cons, ← Nat.add_assoc] at hr
    have hlen := hsmall x List.mem_cons_self
    have hsize : (x.strlen + 1).toNat = x.chars.length + 1 := by
      simp only [KString.strlen, BitVec.toNat_add, BitVec.toNat_ofNat, BitVec.reduceToNat]
      omega
    have hne : x.strlen + 1 ≠ 0 := by
      intro h0
      rw [h0] at hsize
      exact absurd hsize (by simp)
    obtain ⟨p, s1, hk, hr1⟩ := hr.kmalloc h.good hne (by omega)
    obtain ⟨ps, s2, hrest, hr2⟩ := ih (h.kmalloc hk) hr1 fun y hy => hsmall y (List.mem_cons_of_mem x hy)
    refine ⟨p :: ps, s2, ?_, hr2⟩
    unfold copyStrings
    simp only [bind, hk, Option.bind_some, hrest, pure]

theorem freeCopies_room (h : Staged s0 base t c ns V (ps ++ mine) s) (hr : Room n s) :
    ∃ s', freeCopies ps s = some s' ∧ Room n s' := by
  induction ps generalizing s with
  | nil => exact ⟨s, rfl, hr⟩
  | cons p ps ih =>
    have hp : p ∈ s.k.st.live := h.live.mem_iff.2 (List.mem_append_left _ List.mem_cons_self)
    obtain ⟨s1, hk, hr1⟩ := hr.kfree h.good.tidy hp
    obtain ⟨s2, hrest, hr2⟩ := ih (h.kfree hk) hr1
    refine ⟨s2, ?_, hr2⟩
    unfold freeCopies
    rw [List.foldlM_cons, hk]
    exact hrest

/-- a loop of rounds that take five frames at most -/
theorem rounds_room {α : Type} {f : Machine → α → Option Machine} {l : List α}
    (hf : ∀ m x, 5 ≤ freeCount m.pmm → ∃ m', f m x = some m' ∧ freeCount m.pmm ≤ freeCount m'.pmm + 5)
    (hroom : 5 * l.length ≤ freeCount m.pmm) :
    ∃ m', l.foldlM f m = some m' ∧ freeCount m.pmm ≤ freeCount m'.pmm + 5 * l.length := by
  induction l generalizing m with
  | nil => exact ⟨m, rfl, Nat.le_add_right _ _⟩
  | cons x l ih =>
    rw [List.length_cons] at hroom
    obtain ⟨m1, h1, hc1⟩ := hf m x (by omega)
    obtain ⟨m2, h2, hc2⟩ := ih (m := m1) (by omega)
    refine ⟨m2, ?_, ?_⟩
    · rw [List.foldlM_cons, h1]
      exact h2
    · rw [List.length_cons]
      omega

theorem load_room (data : Mb2.Bytes) (size : U64) (h : Room (n + (mapped data size).length) s) :
    ∃ m' ret, parseAndLoad data size s.k.m = some (m', ret) ∧ Room n (s.setM m') := by
  have h1 := h.frames
  obtain ⟨m', hm, hcost⟩ := rounds_room (f := fun m (x : Phdr × U64) => Elf.loadPage data x.1 m x.2)
    (l := mapped data size) (m := s.k.m) (fun m x hx => by
      obtain ⟨a, m1, hm⟩ := mapFresh_isSome x.2 (segFlags x.1) hx
      have hc := mapFresh_freeCount hm
      exact ⟨m1.fill (frameOf a) (pageWords (pageByte data x.1 x.2)), by rw [Elf.loadPage, hm]; rfl, hc⟩) (by omega)
  obtain ⟨ret, hret⟩ := parseAndLoad_isSome hm
  exact ⟨m', ret, hret, h.cost (by omega)⟩

theorem stack_room (h : Room (n + 7) s) : ∃ m', mapStack s.k.m = some m' ∧ Room n (s.setM m') := by
  have h1 := h.frames
  have hlen : (List.range LINUX_STACK_PAGES).length = 128 := List.length_range
  obtain ⟨m', hm, hcost⟩ := rounds_room (f := fun m i =>
      (mapFresh m (LINUX_STACK_BASE + BitVec.ofNat 64 i * 0x1000) USER_RW).map Prod.snd)
    (l := List.range LINUX_STACK_PAGES) (m := s.k.m) (fun m i hx => by
      obtain ⟨a, m1, hm⟩ := mapFresh_isSome (LINUX_STACK_BASE + BitVec.ofNat 64 i * 0x1000) USER_RW hx
      exact ⟨m1, by rw [hm]; rfl, mapFresh_freeCount hm⟩) (by omega)
  exact ⟨m', hm, h.cost (by omega)⟩

theorem create_room (h : Room (n + 1) s) : ∃ a m' s', createAddressSpace s.k.m = some (a, m') ∧
    s.act .create = some s' ∧ Room n (s'.switch a) := by
  have h1 := h.frames
  obtain ⟨a, m', hc, hcost⟩ := create_isSome (m := s.k.m) (by omega)
  have hr : Room n (s.setM m') := h.cost (by omega)
  obtain ⟨s', hs', hm', hheap⟩ : ∃ s', s.act .create = some s' ∧ s'.k.m = m' ∧
      s'.k.st.heap.heapEnd = s.k.st.heap.heapEnd := by
    unfold Sys.act Views.apply
    simp only [hc, Option.map_some]
    exact ⟨_, rfl, rfl, rfl⟩
  refine ⟨a, m', s', hc, hs', ?_, ?_⟩
  · show 100 * n ≤ freeCount s'.k.m.pmm
    rw [hm']
    exact hr.frames
  · show s'.k.st.heap.heapEnd.toNat + _ ≤ _
    rw [hheap]
    exact hr.heap

theorem elfLoad_room {node : Node} (h : Staged s0 base t (addrOf r) [r] (fun _ => none) mine s) (hsep : Separate node)
    (hr : Room (n + (mapped node.data node.size).length + 2) s) (hreads : ∀ p, node.reads p = [])
    (hcomplete : node.complete = true) (hsize : node.size.toNat < 2 ^ 16) :
    ∃ o s', elfLoad ⟨[], some node⟩ s = some (o, s') ∧ Room n s' := by
  have hlen : (node.size + 1).toNat = node.size.toNat + 1 := by
    rw [BitVec.toNat_add, show (1 : U64).toNat = 1 from rfl]
    omega
  have hne : node.size + 1 ≠ 0 := by
    intro h0
    rw [h0] at hlen
    exact absurd hlen (by simp)
  obtain ⟨file, s1, hk, hr1⟩ := hr.kmalloc h.good (show SIZEOF_FILE ≠ 0 by decide) (by decide)
  have hfile := kmalloc_ne_zero h.good (by decide) hk
  have h1 := h.kmalloc hk
  rw [if_neg hfile] at h1
  obtain ⟨data, s2, hk2, hr2⟩ := hr1.kmalloc h1.good hne (by omega)
  have hdata := kmalloc_ne_zero h1.good hne hk2
  have h2 := h1.kmalloc hk2
  rw [if_neg hdata] at h2
  have h2' := h2.perm (List.Perm.swap _ _ _)
  obtain ⟨s3, hf3, hr3⟩ := hr2.kfree h2.good.tidy (h2'.live.mem_iff.2 List.mem_cons_self)
  have h3 := h2'.kfree hf3
  obtain ⟨m4, ret, hload, hr4⟩ := load_room node.data node.size hr3
  have h4 := h3.lay hsep.isPrivate hsep.once (fun _ _ => rfl) (parseAndLoad_spec hload).1
  obtain ⟨s5, hf5, hr5⟩ := hr4.kfree h4.good.tidy (h4.live.mem_iff.2 List.mem_cons_self)
  refine ⟨ret.toOption, s5, ?_, hr5⟩
  unfold elfLoad vfsOpen readWholeFile
  simp only [bind, List.foldlM_nil, pure, Option.bind_some, hk, if_neg hfile, hk2, if_neg hdata, hreads, hcomplete,
    if_true, hf3, hload, hf5]

/-- a block of the heap is in the window that its user relies on -/
theorem kmalloc_window (hg : Views.Good s.k) (hs : size ≠ 0) (hsmall : size.toNat ≤ 2 ^ 16)
    (hk : Execve.kmalloc size s = some (p, s')) : (oneBlock size p).kmalloc size = some p := by
  have hp : ∃ h', s.k.st.heap.kmalloc size = .ok (p, h') := by
    unfold Execve.kmalloc at hk
    cases hh : s.k.st.heap.kmalloc size with
    | error e =>
      rw [hh] at hk
      cases hk
    | ok x =>
      obtain ⟨q, h'⟩ := x
      rw [hh] at hk
      obtain ⟨s1, -, heq⟩ := Option.map_eq_some_iff.1 hk
      obtain ⟨rfl, -⟩ := Prod.mk.inj heq
      exact ⟨h', rfl⟩
  obtain ⟨h', hp⟩ := hp
  obtain ⟨cs, H, -⟩ := hg.tidy
  obtain ⟨cs', x, d, rfl, H', hx, hd, hle, htook, -⟩ := Heap.kmalloc_spec H hs hp
  have hat := ((htook x d).2 (Or.inr ⟨rfl, rfl⟩)).1
  have hbound := hat.bounds
  have htotal := H'.small
  have hcover := (Heap.totalSize_covers size).2 (by omega)
  have hptr : (Heap.ptr (x + 16)).toNat = 0xFFFF800000000000 + (x + 16) := Heap.ptr_toNat (by omega)
  have h1 : HEAP_VIRT_BASE.toNat = 0xFFFF800000000000 := rfl
  have h2 : User.HEAP_MAX.toNat = 0xFFFF8000FFFFFFFF := rfl
  refine if_pos ⟨rfl, ?_, ?_⟩
  · rw [BitVec.le_def]
    omega
  · omega

theorem copyToUser_returns {b : Mem} {va src rem : U64} {fuel : ℕ} (hf : rem.toNat < fuel) :
    ∃ m', copyToUser b fuel va src rem m = some m' ∧ m'.pmm = m.pmm := by
  induction fuel generalizing va src rem m with
  | zero => exact absurd hf (Nat.not_lt_zero _)
  | succ fuel ih =>
    rw [copyToUser]
    by_cases h0 : rem = 0
    · rw [if_pos h0]
      exact ⟨m, rfl, rfl⟩
    rw [if_neg h0]
    obtain ⟨hpos, hle, -⟩ := chunk_toNat va rem h0
    simp only
    generalize (if 0x1000 - (va - (va &&& ~~~0xFFF#64)) < rem then 0x1000 - (va - (va &&& ~~~0xFFF#64)) else rem) = chunk
      at hpos hle ⊢
    have hrest : (rem - chunk).toNat = rem.toNat - chunk.toNat := BitVec.toNat_sub_of_le (BitVec.le_def.2 hle)
    exact ih (by omega)

theorem buildStack_room {b : Mem} {tsc : U64} {result : LoadResult} {argv envp : List KString}
    (h : Staged s0 base t (addrOf r) [r] V mine s) (ha : argv.length ≤ MAX_ARGC) (he : envp.length ≤ MAX_ENVC)
    (hsmall : blockSize argv envp ≤ 2 ^ 16) (hr : Room (n + 1) s) :
    ∃ rsp s', buildStack b tsc result argv envp s = some (rsp, s') ∧ Room n s' := by
  have hsize : (User.total argv envp).toNat ≤ 2 ^ 16 := by
    rw [User.total, BitVec.toNat_ofNat]
    exact le_trans (Nat.mod_le _ _) hsmall
  have hne := total_ne_zero ha he
  obtain ⟨p, s1, hk, hr1⟩ := hr.kmalloc h.good hne hsize
  have hp := kmalloc_ne_zero h.good hne hk
  have h1 := h.kmalloc hk
  rw [if_neg hp] at h1
  have hwin := kmalloc_window h.good hne hsize hk
  have hbuild : ∃ rsp m', buildLinuxStack (oneBlock (User.total argv envp) p) b tsc result argv envp s1.k.m =
      some (rsp, m') ∧ m'.pmm = s1.k.m.pmm := by
    rw [buildLinuxStack_eq ha he, hwin, Option.bind_some, if_neg hp]
    split_ifs
    · exact ⟨0, _, rfl, rfl⟩
    · have hcopy : ∃ m', copyToUser (block b p tsc result argv envp) ((User.total argv envp).toNat + 1)
          (blockBase argv envp) p (User.total argv envp) s1.k.m = some m' ∧ m'.pmm = s1.k.m.pmm :=
        copyToUser_returns (Nat.lt_succ_self _)
      obtain ⟨m', hm', hpmm⟩ := hcopy
      exact ⟨_, m', by rw [hm']; rfl, hpmm⟩
  obtain ⟨rsp, m', hb, hpmm⟩ := hbuild
  have hr2 : Room n (s1.setM m') := Room.cost (d := 0) hr1 (by rw [hpmm]; exact Nat.le_add_right _ _)
  have hlive : p ∈ (s1.setM m').k.st.live := h1.live.mem_iff.2 List.mem_cons_self
  obtain ⟨s2, hf, hr3⟩ := hr2.kfree (tidy_setM h1.good.tidy m') hlive
  refine ⟨rsp, s2, ?_, hr3⟩
  unfold buildStack
  simp only [bind, hk, Option.bind_some, if_neg hp, hb, hf, pure]

/-- **With room, the call returns**, whichever way: a file of the file system's own memory, and strings below 64 KiB. -/
theorem execve_returns {fs : List U8 → Lookup} {b : Mem} {tsc : U64} {path : KString} {argv envp : Option (List KString)}
    (h : Calls s r0) (hpath : path.chars.length < 128) (hstrings : ∀ x ∈ args argv ++ envs envp, x.chars.length < 2 ^ 16)
    (hblock : blockSize (args argv) (envs envp) ≤ 2 ^ 16) {o : Option Node} (hfs : fs path.chars = ⟨[], o⟩)
    (hnode : ∀ node, o = some node → Separate node ∧ (∀ p, node.reads p = []) ∧ node.complete = true ∧
      node.size.toNat < 2 ^ 16 ∧ (mapped node.data node.size).length ≤ n)
    (hr : Room (n + 11 + (envs envp).length + (args argv).length) s) :
    ∃ ret s', sysExecve fs b tsc path argv envp s = some (ret, s') := by
  obtain ⟨base, hbase⟩ := h.blocks
  have h0 : Staged s base s.self (addrOf r0) [] (fun _ => none) [] s :=
    ⟨h.good, rfl, h.loaded, rfl, Unseen.of_mem _ rfl, fun f => by rw [h.grown]; simp, fun r hr => absurd hr List.not_mem_nil,
      hbase⟩
  obtain ⟨argvK, s1, hargv, hr1⟩ := copyStrings_room h0 hr fun x hx => hstrings x (List.mem_append_left _ hx)
  have h1 := copyStrings_staged h0 hargv
  obtain ⟨envpK, s2, henvp, hr2⟩ := copyStrings_room h1 hr1 fun x hx => hstrings x (List.mem_append_right _ hx)
  have h2 := copyStrings_staged h1 henvp
  obtain ⟨a, m3, s3, hcreate, hact, hr3⟩ := create_room (n := n + 10) (hr2.mono (by omega))
  obtain ⟨r, rfl, hnew, h3⟩ := h2.create hcreate hact
  have hcopies : (envpK ++ (argvK ++ [])).Perm ((argvK ++ envpK) ++ []) := by
    rw [List.append_nil, List.append_nil]
    exact List.perm_append_comm
  have hold : s2.self.cr3 = addrOf r0 := by rw [h2.self, h.self]
  have hload : ∃ res s4, elfLoad (fs path.chars) (s3.switch (addrOf r)) = some (res, s4) ∧ Room 8 s4 := by
    rw [hfs]
    cases o with
    | none => exact ⟨none, _, rfl, hr3.mono (by omega)⟩
    | some node =>
      obtain ⟨hsep, hreads, hcomplete, hsize, hlen⟩ := hnode node rfl
      exact elfLoad_room h3 hsep (hr3.mono (by omega)) hreads hcomplete hsize
  obtain ⟨res, s4, hload, hr4⟩ := hload
  have hsep : ∀ node, (fs path.chars).node = some node → Separate node := by
    rw [hfs]
    exact fun node hn => (hnode node hn).1
  obtain ⟨-, V, h4, hfree, -⟩ := elfLoad_staged h3 hsep hload
  unfold args at hargv
  unfold envs at henvp
  unfold sysExecve copyPath
  simp only [bind, if_pos hpath, Option.bind_some, hargv, henvp, hcreate, hact, hload]
  cases res with
  | none =>
    have h5 := (h4.back h.space).perm hcopies
    obtain ⟨s6, hs6, -⟩ := freeCopies_room h5 (Room.zero h5.good.tidy)
    rw [← hold] at hs6
    simp only [hs6, Option.bind_some]
    exact ⟨_, _, rfl⟩
  | some result =>
    obtain ⟨m5, hstack, hr5⟩ := stack_room hr4
    obtain ⟨V1, h5, hV1⟩ := mapStack_staged h4 hfree hstack
    have h5' := h5.withSelf (rfl : { (s4.setM m5).self with
      brkStart := result.highestAddr, brkCur := result.highestAddr, mmapNext := LINUX_MMAP_BASE } = _)
    have hr5' : Room 1 { s4.setM m5 with self := { (s4.setM m5).self with
      brkStart := result.highestAddr, brkCur := result.highestAddr, mmapNext := LINUX_MMAP_BASE } } :=
      ⟨hr5.frames, hr5.heap⟩
    have hstart : ∃ rsp s6, buildStack b tsc result (args argv) (envs envp) _ = some (rsp, s6) ∧ Room 0 s6 :=
      buildStack_room h5' (List.length_take_le _ _) (List.length_take_le _ _) hblock hr5'
    obtain ⟨rsp, s6, hbuild, -⟩ := hstart
    have h6 : ∃ t V2, Staged s base t (addrOf r) [r] V2 (envpK ++ (argvK ++ [])) s6 := by
      rcases buildStack_staged h5' hV1 (List.length_take_le _ _) (List.length_take_le _ _) hbuild with
        ⟨-, -, hst⟩ | ⟨-, -, -, -, -, scratch, V2, hst, -⟩
      · exact ⟨_, _, hst⟩
      · exact ⟨_, V2, hst⟩
    obtain ⟨t, V2, h6⟩ := h6
    obtain ⟨s7, hs7, -⟩ := freeCopies_room (h6.perm hcopies) (Room.zero h6.good.tidy)
    unfold args envs at hbuild
    simp only [hstack, Option.bind_some, hbuild, hs7]
    split_ifs
    · exact ⟨_, _, rfl⟩
    · exact ⟨_, _, rfl⟩
    · exact ⟨_, _, rfl⟩

end Room

/-! ## A first program -/

/-- a process that calls, with room -/
theorem boot_caller : ∃ s r0, Calls s r0 ∧ Room 1000 s := by
  obtain ⟨k, s, r, hk, hr, hin, hload, hfree, hend⟩ := boot_loaded
  refine ⟨⟨s, create 1 0 (addrOf r), [], ∅⟩, r, ⟨⟨k, _, hk, hr⟩, hload, rfl, hin, List.nil_subperm, rfl⟩, ?_, ?_⟩
  · show 100 * 1000 ≤ freeCount s.m.pmm
    omega
  · show s.st.heap.heapEnd.toNat + _ ≤ _
    rw [hend]
    decide

/-- the executable of two segments, on a disk -/
def pairNode : Node := ⟨176, pairElf 0x401000, fun _ => [], true⟩

/-- two pages, far below the stack -/
theorem pairNode_separate : Separate pairNode := by
  have hpages : (mapped pairNode.data pairNode.size).map Prod.snd = [0x400000, 0x401000] := by decide +kernel
  have hin : ∀ x ∈ mapped pairNode.data pairNode.size, x.2 = 0x400000 ∨ x.2 = 0x401000 := by
    intro x hx
    have hmem := List.mem_map_of_mem (f := Prod.snd) hx
    rw [hpages] at hmem
    simpa using hmem
  refine ⟨fun x hx => ?_, ?_, fun x hx i hi heq => ?_⟩
  · rcases hin x hx with h | h
    · rw [h]
      decide
    · rw [h]
      decide
  · have hmap : (mapped pairNode.data pairNode.size).map (fun x : Phdr × U64 => pathOf x.2) =
        ((mapped pairNode.data pairNode.size).map Prod.snd).map pathOf := by rw [List.map_map]; rfl
    rw [hmap, hpages]
    decide
  · have hroot : tableIdx x.2 39 = tableIdx (stackPage i) 39 := by
      simp only [pathOf, List.cons.injEq, and_true] at heq
      exact heq.2.2.2
    have hpage := stackPage_toNat hi
    have hbase := stackBase_toNat
    unfold LINUX_STACK_PAGES at hi
    have hlast : (tableIdx (stackPage i) 39).val = 255 := by
      simp only [tableIdx]
      omega
    rw [← hroot] at hlast
    rcases hin x hx with h | h
    · rw [h] at hlast
      exact absurd hlast (by decide)
    · rw [h] at hlast
      exact absurd hlast (by decide)

/-- what it is asked to run, and with what -/
theorem pairNode_returns {s : Sys} {r0 : ℕ} {o : Option Node} (h : Calls s r0) (hr : Room 1000 s)
    (ho : ∀ node, o = some node → node = pairNode) : ∃ ret s',
      sysExecve (fun _ => ⟨[], o⟩) ⟨fun _ => 0, []⟩ 1 sampleArg (some [sampleArg]) none s = some (ret, s') := by
  have hstrings : ∀ x ∈ args (some [sampleArg]) ++ envs none, x.chars.length < 2 ^ 16 := by
    intro x hx
    have hx' : x = sampleArg := by simpa [args, envs, MAX_ARGC] using hx
    rw [hx']
    decide
  refine execve_returns h (by decide) hstrings (by decide) rfl (fun node hn => ?_) (hr.mono (by decide : 2 + 11 + _ + _ ≤ 1000))
  rw [ho node hn]
  exact ⟨pairNode_separate, fun _ => rfl, rfl, by decide, by decide +kernel⟩

/-! ## Results -/

/-- **A call that returns.** For every file system, file, path and arguments, from every reachable state: the error tells
whether there was no such program or the arguments were too big, and everything is as before the call. Only in the second
case are `brk` and `mmap_next` those of the program that was not started. -/
theorem execve_fails (fs : List U8 → Lookup) (b : Mem) (tsc : U64) (path : KString) (argv envp : Option (List KString))
    (r0 : ℕ) (s s' : Sys) (e : U64) (h : Calls s r0) (hsep : ∀ node, (fs path.chars).node = some node → Separate node)
    (hrun : sysExecve fs b tsc path argv envp s = some (.errno e, s')) :
    Restored s s' ∧ ((e = -ENOENT ∧ program (fs path.chars) = none ∧ s'.self = s.self) ∨
      (e = -E2BIG ∧ ∃ node result, program (fs path.chars) = some (node, result) ∧ TooBig argv envp ∧
        s'.self = renewed s.self result)) := by
  obtain ⟨base, hbase⟩ := h.blocks
  rcases execve_staged h.good h.loaded h.self h.space hbase h.grown hsep hrun with
    ⟨hret, hp, hst⟩ | ⟨node, result, hp, ⟨hret, hbig, hst⟩ | ⟨rsp, r, V1, V2, scratch, s1, hret, -⟩⟩
  · cases hret
    exact ⟨hst.restored h.good h.loaded hbase, Or.inl ⟨rfl, hp, hst.self⟩⟩
  · cases hret
    exact ⟨hst.restored h.good h.loaded hbase, Or.inr ⟨rfl, node, result, hp, hbig, hst.self⟩⟩
  · cases hret

theorem execve_fails_missing : ∃ (s s' : Sys) (r0 : ℕ), Calls s r0 ∧ Restored s s' ∧ s'.self = s.self := by
  obtain ⟨s, r0, h, hr⟩ := boot_caller
  obtain ⟨ret, s', hrun⟩ := pairNode_returns (o := none) h hr fun _ hn => by cases hn
  obtain ⟨base, hbase⟩ := h.blocks
  have hsep : ∀ node, (none : Option Node) = some node → Separate node := fun _ hn => by cases hn
  rcases execve_staged h.good h.loaded h.self h.space hbase h.grown hsep hrun with ⟨rfl, -⟩ | ⟨node, result, hp, -⟩
  · obtain ⟨hres, ⟨-, -, hself⟩ | ⟨he, -⟩⟩ := execve_fails _ _ _ _ _ _ r0 s s' _ h hsep hrun
    · exact ⟨s, s', r0, h, hres, hself⟩
    · exact absurd he (by decide)
  · cases hp

end Retux.Execve
