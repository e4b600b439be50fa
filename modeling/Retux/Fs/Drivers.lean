/-
The directories of the three drivers, as one notion.

`Directory readdir es`: readdir is a driver's `readdir` on one of its directories, and es are the live entries there.

- `readdir_enumerates`: paging through it in chunks of 512 bytes loses and repeats nothing.
-/
import Mathlib.Tactic
import Retux.Fs.Tar
import Retux.Fs.Proc
import Retux.Fs.Ext2

namespace Retux.Vfs

open Retux.Bytes Retux.Str Retux.Paging Retux.Tar Retux.Proc Retux.Ext2

inductive Directory : (ℕ → ℕ → Option (List U8)) → List Dirent → Prop
  /-- a directory node, with its chain of children -/
  | tar {st : TarState} {dir : ℕ} {cs : List ℕ} : (st.nodes dir).isDir = true →
      Chain st.nodes (st.nodes dir).firstChild cs → (∀ c ∈ cs, c < st.numNodes) →
      Directory (tarReaddir st dir) (cs.map (dirent st.nodes))
  /-- well-formed blocks, and memory for one of them -/
  | ext2 {st : Ext2State} {di : Ext2Inode} {blocks : List (List DiskEntry)} : st.heap = true →
      WellFormed st di blocks → Directory (ext2Readdir st di) (live blocks.flatten)
  | proc : Directory (procReaddir INO_ROOT) ENTRIES

/-- every driver walks its entries alike -/
theorem Directory.fill {readdir : ℕ → ℕ → Option (List U8)} {es : List Dirent} (h : Directory readdir es)
    (offset count : ℕ) : readdir offset count = some (fill Dirent.enc offset count 0 [] es) := by
  cases h with
  | tar hdir hchain hn => exact tarReaddir_fill hdir hchain hn
  | ext2 hheap hw => exact ext2Readdir_fill hheap hw
  | proc => exact procReaddir_fill

/-- **Directory paging.** In any directory of any driver, whatever the mix of name lengths: the chunks hold every live
entry once, in order, and a lookup finds the first with the name, if there is one. -/
theorem readdir_enumerates {readdir : ℕ → ℕ → Option (List U8)} {es : List Dirent} (h : Directory readdir es)
    (hv : ∀ e ∈ es, e.Valid) : Enumerates (fun offset => readdir offset CHUNK_SIZE) es :=
  enumerates_of_fill hv fun offset => h.fill offset CHUNK_SIZE

/-- a root with the files a and b -/
def sampleTar : TarState where
  base := fun _ => 0
  nodes
    | 1 => ⟨chars "a", false, 512, 1, none, none⟩
    | 2 => ⟨chars "b", false, 1536, 1, none, some 1⟩
    | _ => ⟨[], true, 0, 0, some 2, none⟩
  numNodes := 3
  capNodes := 32
  full := false

theorem sampleTar_directory : Directory (tarReaddir sampleTar 0) [⟨2, chars "b"⟩, ⟨1, chars "a"⟩] := by
  have hdir : (sampleTar.nodes 0).isDir = true := rfl
  have hchain : Chain sampleTar.nodes (sampleTar.nodes 0).firstChild [2, 1] := Chain.cons (Chain.cons Chain.nil)
  exact Directory.tar hdir hchain (by decide)

theorem readdir_sample : Enumerates (fun offset => tarReaddir sampleTar 0 offset CHUNK_SIZE)
    [⟨2, chars "b"⟩, ⟨1, chars "a"⟩] :=
  readdir_enumerates sampleTar_directory (by unfold Dirent.Valid; decide)

end Retux.Vfs
