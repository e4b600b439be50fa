/-
The initial stack of a Linux program (`build_linux_stack` in `task/user.cpp`).

The block is put together in a kernel buffer, strings first, and copied below `LINUX_STACK_TOP` page by page. Its size,
the offsets of the strings and the number of auxv pairs are counted apart from each other. The heap, the kernel strings
and the time stamp are parameters; the machine is the one after kmalloc, and the buffer is apart from its tables.

- `mapStack_spec`: the callers' loop maps every page of the stack;
- `block_bytes`: what the buffer holds when it is copied;
- `linux_stack`: the call returns 0 exactly for a block that does not fit, and otherwise a program that starts at the
  stack pointer it returns decodes its arguments, its environment and the auxiliary vector from memory.
-/
import Mathlib.Tactic
import Retux.Lib.SysV
import Retux.Mem.Boot
import Retux.Sys.Brk
import Retux.Task.Copy
import Retux.Task.Image

namespace Retux.User

open Retux.Word Retux.Bytes Retux.Loop Retux.Pmm Retux.Vmm Retux.Sys Retux.Elf Retux.SysV

/-! ## Model -/

def USER_STACK_VIRT : U64 := 0x00007FFFFFFFE000
def LINUX_STACK_TOP : U64 := USER_STACK_VIRT + 0x1000
def LINUX_STACK_PAGES : ℕ := 128

def AT_NULL : U64 := 0
def AT_PHDR : U64 := 3
def AT_PHENT : U64 := 4
def AT_PHNUM : U64 := 5
def AT_PAGESZ : U64 := 6
def AT_BASE : U64 := 7
def AT_FLAGS : U64 := 8
def AT_ENTRY : U64 := 9
def AT_UID : U64 := 11
def AT_EUID : U64 := 12
def AT_GID : U64 := 13
def AT_EGID : U64 := 14
def AT_SECURE : U64 := 23
def AT_RANDOM : U64 := 25

def MAX_ARGC : ℕ := 64
def MAX_ENVC : ℕ := 32

/-- a string in kernel memory, up to its NUL; the kernel half has 2^47 bytes -/
structure KString where
  chars : List U8
  noNul : ∀ x ∈ chars, x ≠ 0
  short : chars.length < 2 ^ 47

def KString.strlen (s : KString) : U64 := BitVec.ofNat 64 s.chars.length

def HEAP_MAX : U64 := HEAP_VIRT_BASE + 0xFFFFFFFF

/-- `heap::kmalloc`: `none` is a halt, when the heap would leave its window or memory is out; so a block lies within it -/
structure Heap where
  kmalloc : U64 → Option U64
  window : ∀ {n p}, n ≠ 0 → kmalloc n = some p → HEAP_VIRT_BASE ≤ p ∧ p.toNat + n.toNat ≤ HEAP_MAX.toNat

def xorshift (x : U64) : U64 :=
  let x := x ^^^ (x <<< 13)
  let x := x ^^^ (x >>> 7)
  x ^^^ (x <<< 17)

def fillRandom (tsc : U64) : List U8 :=
  let x := if tsc = 0 then 0x2545F4914F6CDD1D else tsc
  (List.range 16).map fun i => (xorshift^[i + 1] x).setWidth 8

def auxc : U64 := 13

def arrSizeAligned (argc envc : U64) : U64 :=
  let arrSize := (1 + argc + 1 + envc + 1 + auxc * 2 + 2) * 8
  (arrSize + 15) &&& ~~~15#64

/-- `strings_size += strlen(strs[i]) + 1` over the strings -/
def addSizes (ss : List KString) (n : U64) : U64 := ss.foldl (fun n s => n + (s.strlen + 1)) n

/-- the strings copied to off, off + len, ..; also their offsets, and the offset behind them -/
def placeStrings (scratch : U64) : List KString → Mem → U64 → Mem × List U64 × U64
  | [], b, off => (b, [], off)
  | s :: ss, b, off =>
    let len := s.strlen + 1
    let (b, offs, stop) := placeStrings scratch ss (b.put (scratch + off) (s.chars ++ [0])) (off + len)
    (b, off :: offs, stop)

/-- `arr[i++] = w` -/
def putWords (arr : U64) : U64 → List U64 → Mem → Mem
  | _, [], b => b
  | i, w :: ws, b => putWords arr (i + 1) ws (b.put (arr + 8 * i) (le 8 w))

def auxv (result : LoadResult) (randomAddr : U64) : List (U64 × U64) :=
  [(AT_PHDR, result.phdrVaddr), (AT_PHENT, BitVec.ofNat 64 result.phentsize),
    (AT_PHNUM, BitVec.ofNat 64 result.phnum), (AT_PAGESZ, 0x1000), (AT_BASE, 0), (AT_FLAGS, 0),
    (AT_ENTRY, result.entry), (AT_UID, 0), (AT_EUID, 0), (AT_GID, 0), (AT_EGID, 0), (AT_SECURE, 0),
    (AT_RANDOM, randomAddr)]

def arrWords (result : LoadResult) (base argc : U64) (argvOff envpOff : List U64) (randomOff : U64) : List U64 :=
  argc :: ((argvOff.map (base + ·) ++ [0]) ++ ((envpOff.map (base + ·) ++ [0]) ++
    (flat (auxv result (base + randomOff)) ++ [AT_NULL, 0])))

/-- `b` is kernel memory, `tsc` what RDTSC reads -/
def buildLinuxStack (heap : Heap) (b : Mem) (tsc : U64) (result : LoadResult) (argv envp : List KString) (m : Machine) :
    Option (U64 × Machine) := do
  let argc := BitVec.ofNat 64 argv.length
  let envc := BitVec.ofNat 64 envp.length
  let stringsSize := addSizes envp (addSizes argv 16)
  let total := arrSizeAligned argc envc + stringsSize
  let scratch ← heap.kmalloc total
  if scratch = 0 then return (0, m)
  let randomOff := arrSizeAligned argc envc
  let b := b.put (scratch + randomOff) (fillRandom tsc)
  let (b, argvOff, off) := placeStrings scratch argv b (randomOff + 16)
  let (b, envpOff, _) := placeStrings scratch envp b off
  let base := LINUX_STACK_TOP - ((total + 15) &&& ~~~15#64)
  if base < LINUX_STACK_BASE then return (0, m)
  let b := putWords scratch 0 (arrWords result base argc argvOff envpOff randomOff) b
  let m ← copyToUser b (total.toNat + 1) base scratch total m
  return (base, m)

/-- the loop over the stack pages in `linux_task_entry` and `sys_execve` -/
def mapStack (m : Machine) : Option Machine :=
  (List.range LINUX_STACK_PAGES).foldlM (fun m i =>
    (mapFresh m (LINUX_STACK_BASE + BitVec.ofNat 64 i * 0x1000) USER_RW).map Prod.snd) m

/-! ## What should be on the stack -/

/-- the array part in whole 16 bytes, 16 random bytes, and the strings with their NULs -/
def blockSize (argv envp : List KString) : ℕ :=
  (8 * (argv.length + envp.length + 31) + 15) / 16 * 16 + 16 + ((argv ++ envp).map fun s => s.chars.length + 1).sum

/-- the stack is mapped, to any frames -/
def StackMapped (m : Machine) : Prop :=
  ∀ w, LINUX_STACK_BASE ≤ w → w < LINUX_STACK_TOP → ∃ p, translate m.mem (getPml4 m) w = some (p, USER_RW)

/-- what the program is passed -/
def start (result : LoadResult) (argv envp : List KString) (random : U64) : Start :=
  ⟨argv.map KString.chars, envp.map KString.chars, auxv result random⟩

/-- the 16 bytes of AT_RANDOM, the arrays and the strings -/
def parts (rsp random : U64) (s : Start) (l : Places) : List Area := (random, 16) :: (arrays rsp l 13 ++ strings s l)

/-- the stack at rsp is the one that was asked for, and nothing but its memory from rsp on has changed -/
structure Started (m : Machine) (tsc : U64) (result : LoadResult) (argv envp : List KString) (rsp : U64)
    (m' : Machine) : Prop where
  aligned : rsp.toNat % 16 = 0
  base : LINUX_STACK_BASE ≤ rsp
  decodes : ∃ l random, Decodes (userByte m') rsp (start result argv envp random) l ∧
    Reads (userByte m') random (fillRandom tsc) ∧
    (parts rsp random (start result argv envp random) l).Pairwise Apart ∧
    ∀ x ∈ parts rsp random (start result argv envp random) l, Within rsp.toNat LINUX_STACK_TOP.toNat x
  same : m' = { m with mem := m'.mem }
  translate : ∀ w, Vmm.translate m'.mem (getPml4 m) w = Vmm.translate m.mem (getPml4 m) w
  rest : ∀ p, (∀ w, rsp ≤ w → w < LINUX_STACK_TOP → virtToPhys m w ≠ p) → physByte m'.mem p = physByte m.mem p

/-! ## The sizes -/

section Sizes

variable {argv envp ss : List KString} {n : U64}

theorem round16_toNat (x : U64) : (x &&& ~~~15#64).toNat = x.toNat / 16 * 16 := and_not_low x 4

theorem fillRandom_length (tsc : U64) : (fillRandom tsc).length = 16 := by simp [fillRandom]

theorem auxv_length (result : LoadResult) (random : U64) : (auxv result random).length = 13 := rfl

theorem auxv_types (result : LoadResult) (random : U64) : ∀ x ∈ auxv result random, x.1 ≠ 0 := by
  simp only [auxv, List.forall_mem_cons]
  exact ⟨by decide, by decide, by decide, by decide, by decide, by decide, by decide, by decide, by decide, by decide,
    by decide, by decide, by decide, fun _ h => absurd h List.not_mem_nil⟩

theorem arrSizeAligned_toNat {a e : ℕ} (ha : a ≤ MAX_ARGC) (he : e ≤ MAX_ENVC) :
    (arrSizeAligned (BitVec.ofNat 64 a) (BitVec.ofNat 64 e)).toNat = (8 * (a + e + 31) + 15) / 16 * 16 := by
  unfold MAX_ARGC at ha
  unfold MAX_ENVC at he
  have hsum : (((1 + BitVec.ofNat 64 a + 1 + BitVec.ofNat 64 e + 1 + auxc * 2 + 2) * 8 + 15 : U64)).toNat =
      8 * (a + e + 31) + 15 := by
    simp only [auxc, BitVec.toNat_add, BitVec.toNat_mul, BitVec.toNat_ofNat, BitVec.reduceToNat]
    omega
  rw [arrSizeAligned, round16_toNat, hsum]

/-- the strings as bytes -/
def stringBytes (ss : List KString) : List U8 := packed (ss.map KString.chars)

theorem stringBytes_length : (stringBytes ss).length = (ss.map fun s => s.chars.length + 1).sum := by
  rw [stringBytes, packed_length, List.map_map]
  rfl

/-- what strings take is far below 2^64 -/
theorem stringBytes_small (hl : ss.length ≤ 96) : (stringBytes ss).length ≤ 96 * 2 ^ 47 := by
  have hle : (ss.map fun s => s.chars.length + 1).sum ≤ (ss.map fun s => s.chars.length + 1).length • 2 ^ 47 := by
    apply List.sum_le_card_nsmul
    intro x hx
    obtain ⟨s, -, rfl⟩ := List.mem_map.1 hx
    exact s.short
  rw [List.length_map, smul_eq_mul] at hle
  rw [stringBytes_length]
  exact hle.trans (Nat.mul_le_mul_right _ hl)

theorem addSizes_toNat (h : n.toNat + (stringBytes ss).length < 2 ^ 64) :
    (addSizes ss n).toNat = n.toNat + (stringBytes ss).length := by
  induction ss generalizing n with
  | nil => rfl
  | cons s ss ih =>
    have hlen : (stringBytes (s :: ss)).length = s.chars.length + 1 + (stringBytes ss).length := by
      rw [stringBytes_length, stringBytes_length, List.map_cons, List.sum_cons]
    have hstep : (n + (s.strlen + 1)).toNat = n.toNat + (s.chars.length + 1) := by
      simp only [KString.strlen, BitVec.toNat_add, BitVec.toNat_ofNat, BitVec.reduceToNat]
      omega
    have hrest := ih (n := n + (s.strlen + 1)) (by omega)
    rw [addSizes, List.foldl_cons, ← addSizes, hrest, hstep, hlen]
    omega

theorem blockSize_eq : blockSize argv envp =
    (8 * (argv.length + envp.length + 31) + 15) / 16 * 16 + (16 + (stringBytes argv ++ stringBytes envp).length) := by
  rw [blockSize, List.map_append, List.sum_append, List.length_append, stringBytes_length, stringBytes_length]
  omega

/-- the size that is asked of the heap is that of the block -/
theorem total_toNat (ha : argv.length ≤ MAX_ARGC) (he : envp.length ≤ MAX_ENVC) :
    (arrSizeAligned (BitVec.ofNat 64 argv.length) (BitVec.ofNat 64 envp.length) +
      addSizes envp (addSizes argv 16)).toNat = blockSize argv envp := by
  have harr := arrSizeAligned_toNat ha he
  unfold MAX_ARGC at ha
  unfold MAX_ENVC at he
  have h1 : (stringBytes argv).length ≤ 96 * 2 ^ 47 := stringBytes_small (by omega)
  have h2 : (stringBytes envp).length ≤ 96 * 2 ^ 47 := stringBytes_small (by omega)
  have h16 : (16 : U64).toNat = 16 := rfl
  have hargv : (addSizes argv 16).toNat = 16 + (stringBytes argv).length := by
    rw [addSizes_toNat (by omega), h16]
  have henvp : (addSizes envp (addSizes argv 16)).toNat =
      16 + (stringBytes argv).length + (stringBytes envp).length := by
    rw [addSizes_toNat (by omega), hargv]
  rw [BitVec.toNat_add, harr, henvp, blockSize_eq, List.length_append]
  omega

end Sizes

/-! ## The buffer -/

section Buffer

variable {b : Mem} {scratch off a : U64} {k : ℕ} {ss : List KString} {ws : List U64} {xs : List U8}

theorem strlen_succ (s : KString) : s.strlen + 1 = BitVec.ofNat 64 (s.chars.length + 1) := by
  rw [KString.strlen, BitVec.ofNat_add]
  rfl

/-- **The strings** are stored one after the other. -/
theorem placeStrings_eq : placeStrings scratch ss b off =
    (b.put (scratch + off) (stringBytes ss), starts off (ss.map KString.chars), nth off (stringBytes ss).length) := by
  induction ss generalizing b off with
  | nil =>
    have hnil : stringBytes [] = [] := rfl
    rw [placeStrings, hnil, List.length_nil, nth_zero, Mem.put, List.map_nil, starts]
  | cons s ss ih =>
    have hcons : stringBytes (s :: ss) = (s.chars ++ [0]) ++ stringBytes ss := packed_cons
    have hnext : off + (s.strlen + 1) = nth off (s.chars.length + 1) := by rw [strlen_succ, nth]
    have haddr : scratch + nth off (s.chars.length + 1) = nth (scratch + off) (s.chars ++ [0]).length := by
      rw [List.length_append, List.length_singleton, nth, nth, BitVec.add_assoc]
    rw [placeStrings]
    simp only [ih, hnext, haddr]
    rw [← put_append, hcons, nth_add, List.length_append, List.length_append, List.length_singleton, List.map_cons,
      starts]

/-- **The array** is stored as its words. -/
theorem putWords_eq : putWords a (BitVec.ofNat 64 k) ws b = b.put (nth a (8 * k)) (words ws) := by
  induction ws generalizing b k with
  | nil => rfl
  | cons w ws ih =>
    have hnext : BitVec.ofNat 64 k + 1 = BitVec.ofNat 64 (k + 1) := (BitVec.ofNat_add ..).symm
    have haddr : a + 8 * BitVec.ofNat 64 k = nth a (8 * k) := by
      rw [nth, BitVec.ofNat_mul]
      rfl
    rw [putWords, hnext, ih, haddr, words_cons, put_append, length_le, nth_add, Nat.mul_succ]

/-- a piece stays where the next one does not reach -/
theorem block_tail {zs : List U8} {i : ℕ} (hz : zs.length ≤ k) (hend : k + xs.length < 2 ^ 64) (hi : i < xs.length) :
    ((b.put (nth a k) xs).put a zs).byte (nth a (k + i)) = xs[i] := by
  rw [put_rest, ← nth_add, put_byte (by omega) hi]
  intro j hj heq
  have := nth_inj (by omega) (by omega) heq
  omega

end Buffer

/-! ## The call -/

/-- what is asked of the heap -/
def total (argv envp : List KString) : U64 := BitVec.ofNat 64 (blockSize argv envp)

/-- the array part in whole 16 bytes -/
def arraySize (argv envp : List KString) : ℕ := (8 * (argv.length + envp.length + 31) + 15) / 16 * 16

def blockBase (argv envp : List KString) : U64 := LINUX_STACK_TOP - ((total argv envp + 15) &&& ~~~15#64)

/-- where the strings go, in the address space -/
def argPtrs (argv envp : List KString) : List U64 :=
  starts (nth (blockBase argv envp) (arraySize argv envp + 16)) (argv.map KString.chars)

def envPtrs (argv envp : List KString) : List U64 :=
  starts (nth (blockBase argv envp) (arraySize argv envp + 16 + (stringBytes argv).length)) (envp.map KString.chars)

def blockWords (result : LoadResult) (argv envp : List KString) : List U64 :=
  BitVec.ofNat 64 argv.length :: ((argPtrs argv envp ++ [0]) ++ ((envPtrs argv envp ++ [0]) ++
    (flat (auxv result (nth (blockBase argv envp) (arraySize argv envp))) ++ [0, 0])))

def blockTail (tsc : U64) (argv envp : List KString) : List U8 :=
  fillRandom tsc ++ (stringBytes argv ++ stringBytes envp)

/-- the buffer when it is copied -/
def block (b : Mem) (scratch tsc : U64) (result : LoadResult) (argv envp : List KString) : Mem :=
  (b.put (nth scratch (arraySize argv envp)) (blockTail tsc argv envp)).put scratch
    (words (blockWords result argv envp))

section Call

variable {heap : Heap} {b : Mem} {tsc scratch : U64} {result : LoadResult} {argv envp : List KString}
  {m m' : Machine} {rs : List ℕ} {X : Set ℕ}

theorem blockTail_length : arraySize argv envp + (blockTail tsc argv envp).length = blockSize argv envp := by
  rw [blockSize_eq, blockTail, List.length_append, fillRandom_length, arraySize]

theorem blockWords_length : (words (blockWords result argv envp)).length = 8 * (argv.length + envp.length + 31) := by
  have hargs : (argPtrs argv envp).length = argv.length := by rw [argPtrs, starts_length, List.length_map]
  have henvs : (envPtrs argv envp).length = envp.length := by rw [envPtrs, starts_length, List.length_map]
  rw [words_length, blockWords]
  simp only [List.length_cons, List.length_append, List.length_nil, flat_length, auxv_length, hargs, henvs]
  omega

/-- **What the call does.** -/
theorem buildLinuxStack_eq (ha : argv.length ≤ MAX_ARGC) (he : envp.length ≤ MAX_ENVC) :
    buildLinuxStack heap b tsc result argv envp m = (heap.kmalloc (total argv envp)).bind fun scratch =>
      if scratch = 0 then some (0, m)
      else if blockBase argv envp < LINUX_STACK_BASE then some (0, m)
      else (copyToUser (block b scratch tsc result argv envp) ((total argv envp).toNat + 1) (blockBase argv envp)
        scratch (total argv envp) m).map fun m' => (blockBase argv envp, m') := by
  have htotal : arrSizeAligned (BitVec.ofNat 64 argv.length) (BitVec.ofNat 64 envp.length) +
      addSizes envp (addSizes argv 16) = total argv envp := by
    apply BitVec.eq_of_toNat_eq
    have hlt := BitVec.isLt (arrSizeAligned (BitVec.ofNat 64 argv.length) (BitVec.ofNat 64 envp.length) +
      addSizes envp (addSizes argv 16))
    rw [total_toNat ha he] at hlt ⊢
    rw [total, BitVec.toNat_ofNat, Nat.mod_eq_of_lt hlt]
  have harr : arrSizeAligned (BitVec.ofNat 64 argv.length) (BitVec.ofNat 64 envp.length) =
      BitVec.ofNat 64 (arraySize argv envp) := by
    apply BitVec.eq_of_toNat_eq
    have hlt := BitVec.isLt (arrSizeAligned (BitVec.ofNat 64 argv.length) (BitVec.ofNat 64 envp.length))
    rw [arrSizeAligned_toNat ha he] at hlt ⊢
    rw [arraySize, BitVec.toNat_ofNat, Nat.mod_eq_of_lt hlt]
  have hblock : ∀ scratch : U64, (((b.put (scratch + BitVec.ofNat 64 (arraySize argv envp)) (fillRandom tsc)).put
        (scratch + (BitVec.ofNat 64 (arraySize argv envp) + 16)) (stringBytes argv)).put
        (scratch + nth (BitVec.ofNat 64 (arraySize argv envp) + 16) (stringBytes argv).length) (stringBytes envp)) =
      b.put (nth scratch (arraySize argv envp)) (blockTail tsc argv envp) := by
    intro scratch
    rw [blockTail, put_append, put_append, fillRandom_length]
    simp only [nth, BitVec.add_assoc]
    rfl
  have hwords : arrWords result (blockBase argv envp) (BitVec.ofNat 64 argv.length)
      (starts (BitVec.ofNat 64 (arraySize argv envp) + 16) (argv.map KString.chars))
      (starts (nth (BitVec.ofNat 64 (arraySize argv envp) + 16) (stringBytes argv).length) (envp.map KString.chars))
      (BitVec.ofNat 64 (arraySize argv envp)) = blockWords result argv envp := by
    rw [arrWords, blockWords, argPtrs, envPtrs, starts_map, starts_map]
    simp only [nth, BitVec.ofNat_add, BitVec.add_assoc]
    rfl
  have hbase : LINUX_STACK_TOP - ((total argv envp + 15) &&& ~~~15#64) = blockBase argv envp := rfl
  have hput : ∀ (scratch : U64) (ws : List U64) (b : Mem), putWords scratch 0 ws b = b.put scratch (words ws) := by
    intro scratch ws b
    have h : putWords scratch (BitVec.ofNat 64 0) ws b = b.put (nth scratch (8 * 0)) (words ws) := putWords_eq
    rwa [Nat.mul_zero, nth_zero] at h
  unfold buildLinuxStack
  simp only [htotal, bind]
  apply Option.bind_congr
  intro scratch _
  simp only [harr, placeStrings_eq]
  rw [hblock, hbase, hwords, hput, ← block, Option.map_eq_bind]
  rfl

/-! ### Where the block goes -/

theorem userRw_user : user USER_RW = true := by decide

theorem top_toNat : LINUX_STACK_TOP.toNat = 0x7FFFFFFFF000 := rfl

/-- a block of the heap is far smaller than the address space -/
theorem total_small (ha : argv.length ≤ MAX_ARGC) (he : envp.length ≤ MAX_ENVC)
    (hk : heap.kmalloc (total argv envp) = some scratch) :
    (total argv envp).toNat = blockSize argv envp ∧ blockSize argv envp < 2 ^ 32 ∧ scratch ≠ 0 := by
  have htotal := total_toNat ha he
  have hlt := BitVec.isLt (arrSizeAligned (BitVec.ofNat 64 argv.length) (BitVec.ofNat 64 envp.length) +
    addSizes envp (addSizes argv 16))
  rw [htotal] at hlt
  have hsize : (total argv envp).toNat = blockSize argv envp := by
    rw [total, BitVec.toNat_ofNat, Nat.mod_eq_of_lt hlt]
  have hpos : 0 < blockSize argv envp := by
    rw [blockSize_eq]
    omega
  have hne : total argv envp ≠ 0 := by
    intro h0
    rw [h0] at hsize
    exact absurd hsize.symm (Nat.pos_iff_ne_zero.1 hpos)
  obtain ⟨hge, hle⟩ := heap.window hne hk
  have hstart : HEAP_VIRT_BASE.toNat = 0xFFFF800000000000 := rfl
  have hmax : HEAP_MAX.toNat = 0xFFFF8000FFFFFFFF := rfl
  rw [BitVec.le_def, hstart] at hge
  rw [hmax, hsize] at hle
  refine ⟨hsize, by omega, ?_⟩
  rintro rfl
  exact absurd hge (by decide)

theorem blockBase_toNat (hsize : (total argv envp).toNat = blockSize argv envp)
    (hsmall : blockSize argv envp < 2 ^ 32) :
    (blockBase argv envp).toNat = LINUX_STACK_TOP.toNat - (blockSize argv envp + 15) / 16 * 16 := by
  have h15 : (total argv envp + 15).toNat = blockSize argv envp + 15 := by
    rw [BitVec.toNat_add, hsize, show (15 : U64).toNat = 15 from rfl]
    omega
  have hround : ((total argv envp + 15) &&& ~~~15#64).toNat = (blockSize argv envp + 15) / 16 * 16 := by
    rw [round16_toNat, h15]
  have hle : (total argv envp + 15) &&& ~~~15#64 ≤ LINUX_STACK_TOP := by
    rw [BitVec.le_def, hround, top_toNat]
    omega
  rw [blockBase, BitVec.toNat_sub_of_le hle, hround]

/-- the block fits exactly if its base is on the stack -/
theorem base_low_iff (hsize : (total argv envp).toNat = blockSize argv envp) (hsmall : blockSize argv envp < 2 ^ 32) :
    blockBase argv envp < LINUX_STACK_BASE ↔
      LINUX_STACK_TOP.toNat - LINUX_STACK_BASE.toNat < blockSize argv envp := by
  rw [BitVec.lt_def, blockBase_toNat hsize hsmall, top_toNat, stackBase_toNat]
  omega

/-! ### The stack in user memory -/

theorem stack_private {w : U64} (h1 : LINUX_STACK_BASE.toNat ≤ w.toNat) (h2 : w.toNat < LINUX_STACK_TOP.toNat) :
    isPrivate w = true := by
  rw [stackBase_toNat] at h1
  rw [top_toNat] at h2
  have hidx : (tableIdx w 39).val = 255 := by
    simp only [tableIdx]
    omega
  have hne : ∀ i : Idx, i.val ≠ 255 → tableIdx w 39 ≠ i := by
    rintro i hi rfl
    exact hi hidx
  unfold isPrivate
  rw [if_neg (hne 0 (by decide))]
  simp [hne 256 (by decide), hne 384 (by decide)]

theorem StackMapped.mapped (hs : StackMapped m) {w : U64} (h1 : LINUX_STACK_BASE.toNat ≤ w.toNat)
    (h2 : w.toNat < LINUX_STACK_TOP.toNat) : Mapped m w := by
  obtain ⟨p, hp⟩ := hs w (BitVec.le_def.2 h1) (BitVec.lt_def.2 h2)
  rw [top_toNat] at h2
  exact ⟨stack_private h1 (by rw [top_toNat]; exact h2), by omega, _, hp⟩

/-- what is copied to the stack is what the program reads there -/
theorem userByte_copied {va : U64} {n : ℕ} {xs : ℕ → U8} (hs : StackMapped m) (hc : Copied m va n xs m')
    (h1 : LINUX_STACK_BASE.toNat ≤ va.toNat) (h2 : va.toNat + n ≤ LINUX_STACK_TOP.toNat) {i : ℕ} (hi : i < n) :
    userByte m' (nth va i) = some (xs i) := by
  have hat : (nth va i).toNat = va.toNat + i := nth_toNat (by rw [top_toNat] at h2; omega)
  obtain ⟨p, hp⟩ := hs (nth va i) (by rw [BitVec.le_def, hat]; omega) (by rw [BitVec.lt_def, hat]; omega)
  have hphys : virtToPhys m (nth va i) = p := by
    rw [virtToPhys_eq, hp]
    rfl
  have htr : Vmm.translate m'.mem (getPml4 m') (nth va i) = some (p, USER_RW) := by
    rw [hc.pml4, hc.translate, hp]
  rw [userByte_eq htr userRw_user, ← hc.byte i hi, hphys]

/-- the pointers are not null -/
theorem ptrs_ne_zero {a : U64} {ss : List (List U8)} (hpos : 0 < a.toNat)
    (hend : a.toNat + (packed ss).length < 2 ^ 64) : ∀ p ∈ starts a ss, p ≠ 0 := by
  rintro p hp rfl
  have hge := starts_ge hend 0 hp
  rw [show (0 : U64).toNat = 0 from rfl] at hge
  omega

theorem chars_noNul (ss : List KString) : ∀ s ∈ ss.map KString.chars, ∀ x ∈ s, x ≠ 0 := by
  intro s hs
  obtain ⟨k, -, rfl⟩ := List.mem_map.1 hs
  exact k.noNul

theorem packed_args : packed (argv.map KString.chars ++ envp.map KString.chars) =
    stringBytes argv ++ stringBytes envp := packed_append

/-- **A block in memory is decoded.** Wherever a program reads it, at an address below its end. -/
theorem block_decodes {rd : U64 → Option U8} {base : U64} (hbase : blockBase argv envp = base) (hpos : 0 < base.toNat)
    (hend : base.toNat + blockSize argv envp < 2 ^ 64)
    (hrd : ∀ i < blockSize argv envp,
      rd (nth base i) = some ((block b scratch tsc result argv envp).byte (nth scratch i))) :
    Decodes rd base (start result argv envp (nth base (arraySize argv envp)))
        (places base (argPtrs argv envp) (envPtrs argv envp) 13) ∧
      Reads rd (nth base (arraySize argv envp)) (fillRandom tsc) := by
  have hsize : arraySize argv envp + (blockTail tsc argv envp).length = blockSize argv envp := blockTail_length
  have hwords : (words (blockWords result argv envp)).length = 8 * (argv.length + envp.length + 31) :=
    blockWords_length
  have hfit : (words (blockWords result argv envp)).length ≤ arraySize argv envp := by
    rw [hwords, arraySize]
    omega
  have hstrings : (blockTail tsc argv envp).length = 16 + ((stringBytes argv).length + (stringBytes envp).length) := by
    rw [blockTail, List.length_append, fillRandom_length, List.length_append]
  -- the two parts of the block
  have harr : Reads rd base (words (blockWords result argv envp)) := by
    intro i hi
    rw [hrd i (by omega), block, put_byte (by omega) hi]
  have htail : Reads rd (nth base (arraySize argv envp)) (blockTail tsc argv envp) := by
    intro i hi
    rw [nth_add, hrd _ (by omega), block, block_tail hfit (by omega) hi]
  have hstr := htail.right
  rw [fillRandom_length, nth_add] at hstr
  have henv := hstr.right
  rw [nth_add] at henv
  have hat : ∀ k, k ≤ blockSize argv envp → (nth base k).toNat = base.toNat + k := fun k hk =>
    nth_toNat (by omega)
  have hargs : List.Forall₂ (CString rd) (argPtrs argv envp) (argv.map KString.chars) := by
    rw [argPtrs, hbase]
    exact packed_strings (chars_noNul argv) hstr.left
  have henvs : List.Forall₂ (CString rd) (envPtrs argv envp) (envp.map KString.chars) := by
    rw [envPtrs, hbase]
    exact packed_strings (chars_noNul envp) henv
  refine ⟨Decodes.of_reads ?_ ?_ (auxv_types _ _) ?_ hargs henvs, htail.left⟩
  · rw [argPtrs, hbase]
    have h := hat (arraySize argv envp + 16) (by omega)
    exact ptrs_ne_zero (by omega) (by rw [h, ← stringBytes]; omega)
  · rw [envPtrs, hbase]
    have h := hat (arraySize argv envp + 16 + (stringBytes argv).length) (by omega)
    exact ptrs_ne_zero (by omega) (by rw [h, ← stringBytes]; omega)
  · rw [blockWords, hbase] at harr
    rw [start, List.length_map]
    exact harr

/-- **Its parts lie apart**, and within it. -/
theorem block_apart (result : LoadResult) (argv envp : List KString) {base : U64} (hbase : blockBase argv envp = base)
    (hend : base.toNat + blockSize argv envp < 2 ^ 64) (random : U64) :
    (parts base (nth base (arraySize argv envp)) (start result argv envp random)
      (places base (argPtrs argv envp) (envPtrs argv envp) 13)).Pairwise Apart ∧
    ∀ x ∈ parts base (nth base (arraySize argv envp)) (start result argv envp random)
      (places base (argPtrs argv envp) (envPtrs argv envp) 13),
      Within base.toNat (base.toNat + blockSize argv envp) x := by
  have hsize : blockSize argv envp = arraySize argv envp + (16 + (stringBytes argv ++ stringBytes envp).length) :=
    blockSize_eq
  rw [← packed_args] at hsize
  have hargs : (argPtrs argv envp).length = argv.length := by rw [argPtrs, starts_length, List.length_map]
  have henvs : (envPtrs argv envp).length = envp.length := by rw [envPtrs, starts_length, List.length_map]
  have hA : arraySize argv envp = (8 * (argv.length + envp.length + 31) + 15) / 16 * 16 := rfl
  have hrand : (nth base (arraySize argv envp)).toNat = base.toNat + arraySize argv envp := nth_toNat (by omega)
  have hstr : (nth base (arraySize argv envp + 16)).toNat = base.toNat + (arraySize argv envp + 16) :=
    nth_toNat (by omega)
  -- the pointers are one run of packed strings
  have hptrs : argPtrs argv envp ++ envPtrs argv envp =
      starts (nth base (arraySize argv envp + 16)) (argv.map KString.chars ++ envp.map KString.chars) := by
    rw [starts_append, argPtrs, envPtrs, hbase, nth_add, stringBytes]
  obtain ⟨hapart, hin⟩ := SysV.block_areas base (start result argv envp random) 13
    (nth base (arraySize argv envp), 16) hptrs (by simp only [hrand, hargs, henvs]; omega)
    (by simp only [hrand, hstr]; omega) (by simp only [hstr, start]; omega)
  refine ⟨hapart, fun x hx => ?_⟩
  obtain ⟨h1, h2⟩ := hin x hx
  simp only [hstr, start] at h2
  exact ⟨h1, by omega⟩

/-- a block that was copied to its base is the stack that was asked for -/
theorem block_started (hs : StackMapped m) (hsize : (total argv envp).toNat = blockSize argv envp)
    (hsmall : blockSize argv envp < 2 ^ 32) (hfits : LINUX_STACK_BASE ≤ blockBase argv envp)
    (hc : Copied m (blockBase argv envp) (blockSize argv envp)
      (fun i => (block b scratch tsc result argv envp).byte (nth scratch i)) m') :
    Started m tsc result argv envp (blockBase argv envp) m' := by
  have hat := blockBase_toNat hsize hsmall
  have htop := top_toNat
  have hlow := stackBase_toNat
  have hbase : LINUX_STACK_BASE.toNat ≤ (blockBase argv envp).toNat := BitVec.le_def.1 hfits
  have hend : (blockBase argv envp).toNat + blockSize argv envp ≤ LINUX_STACK_TOP.toNat := by omega
  have hrd : ∀ i < blockSize argv envp, userByte m' (nth (blockBase argv envp) i) =
      some ((block b scratch tsc result argv envp).byte (nth scratch i)) :=
    fun i hi => userByte_copied hs hc hbase hend hi
  obtain ⟨hdec, hrandom⟩ := block_decodes rfl (by omega) (by omega) hrd
  obtain ⟨hapart, hin⟩ := block_apart result argv envp rfl (by omega)
    (nth (blockBase argv envp) (arraySize argv envp))
  refine ⟨by omega, hfits, ⟨_, _, hdec, hrandom, hapart, fun x hx => ?_⟩, hc.same, hc.translate, fun p hp => ?_⟩
  · obtain ⟨h1, h2⟩ := hin x hx
    exact ⟨h1, h2.trans hend⟩
  · refine hc.rest p fun i hi => hp _ ?_ ?_
    · rw [BitVec.le_def, nth_toNat (by omega)]
      omega
    · rw [BitVec.lt_def, nth_toNat (by omega)]
      omega

/-- **The initial stack.** On a mapped stack, the call returns whenever the heap has a block. It returns 0 exactly if
the block does not fit between `LINUX_STACK_BASE` and `LINUX_STACK_TOP`, with nothing written; otherwise a program that
starts at the stack pointer it returns decodes what it was passed, whatever the frames behind the stack. -/
theorem linux_stack (heap : Heap) (b : Mem) (tsc : U64) (result : LoadResult) (argv envp : List KString)
    (hb : Built m rs X) (hr : getPml4 m ∈ rs) (hs : StackMapped m) (ha : argv.length ≤ MAX_ARGC)
    (he : envp.length ≤ MAX_ENVC) :
    Runs (heap.kmalloc (BitVec.ofNat 64 (blockSize argv envp)) ≠ none)
      (buildLinuxStack heap b tsc result argv envp m) fun (rsp, m') =>
        (rsp = 0 ↔ LINUX_STACK_TOP.toNat - LINUX_STACK_BASE.toNat < blockSize argv envp) ∧
        (rsp = 0 → m' = m) ∧ (rsp ≠ 0 → Started m tsc result argv envp rsp m') := by
  rw [buildLinuxStack_eq ha he, ← total]
  cases hk : heap.kmalloc (total argv envp) with
  | none => exact ⟨fun h => absurd h.symm (Option.some_ne_none _), fun h => absurd rfl h⟩
  | some scratch =>
    obtain ⟨hsize, hsmall, h0⟩ := total_small ha he hk
    rw [Option.bind_some, if_neg h0]
    by_cases hlow : blockBase argv envp < LINUX_STACK_BASE
    · -- the block does not fit
      rw [if_pos hlow]
      have hbig := (base_low_iff hsize hsmall).1 hlow
      exact Runs.pure ⟨⟨fun _ => hbig, fun _ => rfl⟩, fun _ => rfl, fun h => absurd rfl h⟩
    rw [if_neg hlow]
    have hfits : LINUX_STACK_BASE ≤ blockBase argv envp := BitVec.not_lt.1 hlow
    have hge := BitVec.le_def.1 hfits
    have hat := blockBase_toNat hsize hsmall
    have htop := top_toNat
    have hstack := stackBase_toNat
    have hmap : ∀ i < (total argv envp).toNat, Mapped m (nth (blockBase argv envp) i) := by
      intro i hi
      have hi' : (nth (blockBase argv envp) i).toNat = (blockBase argv envp).toNat + i := nth_toNat (by omega)
      exact hs.mapped (by omega) (by omega)
    obtain ⟨m', hm', -, hc⟩ := copyToUser_spec (block b scratch tsc result argv envp) scratch hb hr hmap
      (by omega) (Nat.lt_succ_self _)
    rw [hsize] at hc
    rw [hm', Option.map_some]
    have hne : blockBase argv envp ≠ 0 := by
      intro h
      rw [h, show (0 : U64).toNat = 0 from rfl] at hge
      omega
    have hsmall' : ¬ LINUX_STACK_TOP.toNat - LINUX_STACK_BASE.toNat < blockSize argv envp := fun h =>
      hlow ((base_low_iff hsize hsmall).2 h)
    exact Runs.pure ⟨⟨fun h => absurd h hne, fun h => absurd h hsmall'⟩, fun h => absurd h hne,
      fun _ => block_started hs hsize hsmall hfits hc⟩

/-! ## The callers' loop -/

/-- page i of the stack -/
def stackPage (i : ℕ) : U64 := LINUX_STACK_BASE + BitVec.ofNat 64 i * 0x1000

theorem stackPage_toNat {i : ℕ} (hi : i < LINUX_STACK_PAGES) :
    (stackPage i).toNat = LINUX_STACK_BASE.toNat + i * 4096 := by
  unfold LINUX_STACK_PAGES at hi
  have hmul : (BitVec.ofNat 64 i * 0x1000 : U64).toNat = i * 4096 := by
    rw [BitVec.toNat_mul, BitVec.toNat_ofNat, show (0x1000 : U64).toNat = 4096 from rfl]
    omega
  rw [stackPage, BitVec.toNat_add, hmul, stackBase_toNat]
  omega

/-- **The loop maps the stack**, if there are five free frames for each page. -/
theorem mapStack_spec (hb : Built m rs X) (hr : getPml4 m ∈ rs) :
    Runs (5 * LINUX_STACK_PAGES ≤ freeCount m.pmm) (mapStack m) fun m' =>
      Built m' rs X ∧ getPml4 m' = getPml4 m ∧ StackMapped m' := by
  have hloop : Runs (5 * LINUX_STACK_PAGES ≤ freeCount m.pmm) (mapStack m) fun m' =>
      Built m' rs X ∧ getPml4 m' = getPml4 m ∧
        freeCount m.pmm ≤ freeCount m'.pmm + 5 * (List.range LINUX_STACK_PAGES).length ∧
        ∀ i ∈ List.range LINUX_STACK_PAGES, ∀ w, isPrivate w = true → pathOf w = pathOf (stackPage i) →
          ∃ p, Vmm.translate m'.mem (getPml4 m) w = some (p, USER_RW) := by
    refine Runs.foldlM (P := fun done m' => Built m' rs X ∧ getPml4 m' = getPml4 m ∧
      freeCount m.pmm ≤ freeCount m'.pmm + 5 * done.length ∧ ∀ i ∈ done, ∀ w, isPrivate w = true →
        pathOf w = pathOf (stackPage i) → ∃ p, Vmm.translate m'.mem (getPml4 m) w = some (p, USER_RW)) ?_ ?_
    · exact ⟨hb, rfl, by simp, by simp⟩
    · intro done i m1 hpre hP
      obtain ⟨hb1, hpml4, hcost, hdone⟩ := hP
      have hi : i < LINUX_STACK_PAGES := List.mem_range.1 (hpre.subset (by simp))
      have hlen : done.length < LINUX_STACK_PAGES := by
        have hle := hpre.length_le
        rw [List.length_append, List.length_singleton, List.length_range] at hle
        omega
      have hpage := stackPage_toNat hi
      have hpages : LINUX_STACK_BASE.toNat + LINUX_STACK_PAGES * 4096 = LINUX_STACK_TOP.toNat := by decide
      have hv : isPrivate (stackPage i) = true := stack_private (by omega) (by omega)
      have hr1 : getPml4 m1 ∈ rs := by rw [hpml4]; exact hr
      refine ⟨fun {m2} hm2 => ?_, fun hB => ?_⟩
      · obtain ⟨⟨a, m3⟩, hmap, rfl⟩ := Option.map_eq_some_iff.1 hm2
        obtain ⟨L, hist⟩ := hb1.history
        have hroot := (hist.roots _).1 hr1
        have hcr := mapFresh_cr3 hist.inv hroot hv userRw_leaf hmap
        have hfree := mapFresh_freeCount hmap
        refine ⟨hb1.map hr1 hv userRw_leaf hmap, ?_, ?_, fun j hj w hw hp => ?_⟩
        · rw [← hpml4, getPml4, hcr, getPml4]
        · rw [List.length_append, List.length_singleton]
          simp only
          omega
        · have htr := mapFresh_translate hist.inv hroot hv userRw_leaf hmap hw
          rw [hpml4] at htr
          by_cases hsame : pathOf w = pathOf (stackPage i)
          · rw [if_pos hsame] at htr
            exact ⟨_, htr⟩
          · rw [if_neg hsame] at htr
            rcases List.mem_append.1 hj with hj | hj
            · obtain ⟨p, hold⟩ := hdone j hj w hw hp
              exact ⟨p, htr.trans hold⟩
            · rw [List.mem_singleton.1 hj] at hp
              exact absurd hp hsame
      · obtain ⟨a, m2, hm2⟩ := mapFresh_isSome (m := m1) (stackPage i) USER_RW (by omega)
        exact ⟨m2, by rw [← stackPage, hm2]; rfl⟩
  refine hloop.mono fun m' h => ?_
  obtain ⟨hb', hpml4, -, hall⟩ := h
  refine ⟨hb', hpml4, fun w h1 h2 => ?_⟩
  rw [BitVec.le_def] at h1
  rw [BitVec.lt_def] at h2
  have htop := top_toNat
  have hstack := stackBase_toNat
  have hi : (w.toNat - LINUX_STACK_BASE.toNat) / 4096 < LINUX_STACK_PAGES := by
    unfold LINUX_STACK_PAGES
    omega
  rw [hpml4]
  refine hall _ (List.mem_range.2 hi) w (stack_private h1 h2) (path_same ?_)
  rw [stackPage_toNat hi]
  omega

end Call

/-- a heap that gives its first bytes for blocks of up to a page, and halts for more -/
def sampleHeap : Heap where
  kmalloc n := if n.toNat ≤ 4096 then some HEAP_VIRT_BASE else none
  window := by
    intro n p _ h
    split_ifs at h with hn
    obtain rfl := Option.some.inj h
    have hstart : HEAP_VIRT_BASE.toNat = 0xFFFF800000000000 := rfl
    have hmax : HEAP_MAX.toNat = 0xFFFF8000FFFFFFFF := rfl
    exact ⟨BitVec.le_refl _, by omega⟩

/-- "sh" -/
def sampleArg : KString := ⟨[0x73, 0x68], by decide, by decide⟩

/-- one argument and no environment, on a stack mapped in the first address space after boot -/
theorem linux_stack_sample : ∃ m rs X rsp m', Built m rs X ∧ getPml4 m ∈ rs ∧ StackMapped m ∧
    buildLinuxStack sampleHeap ⟨fun _ => 0, []⟩ 1 ⟨0x401000, 0x400040, 2, 56, 0x402000⟩ [sampleArg] [] m =
      some (rsp, m') ∧ rsp ≠ 0 ∧ Started m 1 ⟨0x401000, 0x400040, 2, 56, 0x402000⟩ [sampleArg] [] rsp m' := by
  obtain ⟨r, m0, -, -, hb, hcr, hfree, -⟩ := boot_space
  have hr : getPml4 { m0 with cr3 := addrOf r } ∈ [r] := by rw [hcr]; simp
  have hstack := mapStack_spec hb hr
  obtain ⟨m, hm⟩ := hstack.returns (by
    unfold LINUX_STACK_PAGES
    show 5 * 128 ≤ freeCount m0.pmm
    omega)
  obtain ⟨hb1, hpml4, hs⟩ := hstack.post hm
  have hr1 : getPml4 m ∈ [r] := by rw [hpml4]; exact hr
  have hcall := linux_stack sampleHeap ⟨fun _ => 0, []⟩ 1 ⟨0x401000, 0x400040, 2, 56, 0x402000⟩ [sampleArg] [] hb1 hr1
    hs (by decide) (by decide)
  obtain ⟨⟨rsp, m'⟩, hres⟩ := hcall.returns (by decide)
  obtain ⟨hzero, -, hstarted⟩ := hcall.post hres
  have hne : rsp ≠ 0 := fun h => absurd (hzero.1 h) (by decide)
  exact ⟨m, _, _, rsp, m', hb1, hr1, hs, hres, hne, hstarted hne⟩

end Retux.User
