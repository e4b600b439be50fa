/-
/proc (`fs/procfs.cpp`): one directory of three files, each rendered when it is opened.

`render` makes a file's text in 512 bytes of scratch and copies it to the heap; `ProcContent` is what it leaves, with
the bound. What the texts say is left out. Result: `procReaddir_fill`.
-/
import Mathlib.Tactic
import Retux.Fs.Vfs
import Retux.Str.Strncpy

namespace Retux.Proc

open Retux.Word Retux.Bytes Retux.Str Retux.Paging Retux.Vfs

/-! ## Model -/

def INO_ROOT : U64 := 0
def INO_UPTIME : U64 := 1
def INO_MEMINFO : U64 := 2
def INO_CPUINFO : U64 := 3

def chars (s : String) : List U8 := s.toList.map fun c => BitVec.ofNat 8 c.toNat

def ENTRIES : List Dirent :=
  [⟨INO_UPTIME, chars "uptime"⟩, ⟨INO_MEMINFO, chars "meminfo"⟩, ⟨INO_CPUINFO, chars "cpuinfo"⟩]

/-- null data is a `kmalloc` that failed -/
structure ProcContent where
  data : Option (ℕ → U8)
  size : U64
  fits : size.toNat ≤ 512

def procRead (content : Option ProcContent) (offset buf count : U64) (m : Mem) : U64 × Mem :=
  match content with
  | none => (-1, m)
  | some content =>
    match content.data with
    | none => (-1, m)
    | some data =>
      if offset ≥ content.size then (0, m)
      else
        let count := clamp offset count content.size
        (count, memcpy m buf (fun i => data (offset.toNat + i)) count.toNat)

/-- the loop of `proc_readdir` -/
def readdirLoop (offset count : ℕ) : List Dirent → List U8 → ℕ → List U8
  | [], out, _ => out
  | e :: es, out, streamPos =>
    let needed := 8 + e.name.length + 1
    if streamPos ≥ offset then
      if out.length + needed > count then out
      else readdirLoop offset count es (out ++ (le 8 e.ino ++ e.name ++ [0])) (streamPos + needed)
    else readdirLoop offset count es out (streamPos + needed)

def procReaddir (ino : U64) (offset count : ℕ) : Option (List U8) :=
  if ino ≠ INO_ROOT then none else some (readdirLoop offset count ENTRIES [] 0)

/-! ## The directory -/

theorem readdirLoop_eq {offset count pos : ℕ} {out : List U8} (es : List Dirent) :
    readdirLoop offset count es out pos = fill Dirent.enc offset count pos out es := by
  induction es generalizing out pos with
  | nil => rfl
  | cons e es ih =>
    have hlen : e.enc.length = 8 + e.name.length + 1 := by
      rw [enc_length]
      omega
    rw [readdirLoop, fill, hlen]
    simp only [ge_iff_le, gt_iff_lt]
    split_ifs
    · rfl
    · exact ih
    · exact ih

/-- **Paging through /proc.** -/
theorem procReaddir_fill {offset count : ℕ} :
    procReaddir INO_ROOT offset count = some (fill Dirent.enc offset count 0 [] ENTRIES) := by
  rw [procReaddir, if_neg (by simp), readdirLoop_eq]

end Retux.Proc
