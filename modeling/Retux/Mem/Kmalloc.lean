/-
Allocating and freeing (`mem/heap.cpp`): `kmalloc`, `kfree`, and the heap as it grows.
-/
import Mathlib.Tactic
import Retux.Lib.Run
import Retux.Mem.Heap

namespace Retux.Heap

open Retux.Word Retux.Bytes Retux.Tags Retux.Vmm Retux.Pmm

section Functions

variable {h h' k : Heap} {cs pre post mid : List Cell} {fs : List ℕ} {c : Cell} {o S T : ℕ} {x : U64} {f : Bool}

/-- the four tag words of a new block -/
theorem words_setTags {k k' : Heap} (hx : x.toNat = S) (h32 : 32 ≤ S) (ho : o + S < LIMIT)
    (hk : k = (h.setSize (ptr o) x).setFree (ptr o) f) (hk' : k' = k.setSize (k.footerOf (ptr o)) x) :
    (k'.setFree (k'.footerOf (ptr o)) f).words = Function.update (Function.update (Function.update
      (Function.update h.words o x) (o + 8) (mark (h.words (o + 8)) f)) (o + S - 16) x) (o + S - 8)
        (mark (h.words (o + S - 8)) f) := by
  have h1 : k.words = Function.update (Function.update h.words o x) (o + 8) (mark (h.words (o + 8)) f) := by
    rw [hk, words_setFree (by omega), words_setSize (by omega), Function.update_of_ne (by omega)]
  have hko : k.words o = x := by rw [h1, Function.update_of_ne (by omega), Function.update_self]
  have h2 : k'.words = Function.update k.words (o + S - 16) x := by
    rw [hk', words_footerSize (by rw [hko]; exact hx) (by omega) ho]
  have hko' : k'.words o = x := by rw [h2, Function.update_of_ne (by omega), hko]
  rw [words_footerFree (by rw [hko']; exact hx) (by omega) ho, h2, Function.update_of_ne (by omega), h1,
    Function.update_of_ne (by omega), Function.update_of_ne (by omega)]

/-- a block with all four tags written -/
theorem tag_set {w g : ℕ → U64} {x : U64} (hx : x.toNat = S) (h40 : 40 ≤ S)
    (hw : w = Function.update (Function.update (Function.update (Function.update g o x) (o + 8) (mark (g (o + 8)) f))
      (o + S - 16) x) (o + S - 8) (mark (g (o + S - 8)) f)) : Tag w o ⟨S, f⟩ := by
  refine ⟨?_, ?_, ?_, ?_⟩
  · rw [hw, Function.update_of_ne (by omega), Function.update_of_ne (by omega), Function.update_of_ne (by omega),
      Function.update_self]
    exact hx
  · rw [hw, Function.update_of_ne (by omega), Function.update_of_ne (by omega), Function.update_self, flag_mark]
  · dsimp only
    rw [hw, Function.update_of_ne (by omega), Function.update_self]
    exact hx
  · dsimp only
    rw [hw, Function.update_self, flag_mark]

/-- **One block becomes several**, or changes its flag: the rest of the heap is as before. -/
theorem replace_spec (H : Listed h (pre ++ c :: post) fs) (hfs : total pre ∉ fs)
    (hmid : Tagged h'.words (total pre) mid)
    (hsized : Sized mid) (hlen : total mid = c.size) (hend : h'.heapEnd = h.heapEnd) (hlist : h'.freeList = h.freeList)
    (hw : ∀ a, a < total pre ∨ total pre + c.size ≤ a → h'.words a = h.words a) :
    Listed h' (pre ++ (mid ++ post)) fs := by
  have hatc : At 0 (pre ++ c :: post) (total pre) c := by simp
  have hcases : ∀ y ∈ fs, (∃ e, At 0 pre y e) ∨ ∃ e, At (total pre + c.size) post y e := by
    intro y hy
    obtain ⟨e, he⟩ := H.starts y hy
    simp only [at_append, at_cons, Nat.zero_add] at he
    rcases he with he | ⟨rfl, -⟩ | he
    · exact Or.inl ⟨e, he⟩
    · exact absurd hy hfs
    · exact Or.inr ⟨e, he⟩
  have htotal : total (pre ++ (mid ++ post)) = total (pre ++ c :: post) := by
    simp only [total_append, total_cons, hlen]
  refine ⟨H.sized.left.append (hsized.append H.sized.right.tail), ?_, ?_, ?_, H.nodup, fun y hy => ?_, ?_⟩
  · refine Tagged.splice (m := [c]) H.tags H.sized (fun x _ _ hx _ => hw x ?_) (by rwa [Nat.zero_add]) (by simp [hlen])
    simp only [Nat.zero_add, total_cons, total_nil] at hx
    omega
  · rw [hend, htotal]
    exact H.heapEnd
  · rw [htotal]
    exact H.small
  · simp only [at_append, Nat.zero_add, hlen]
    rcases hcases y hy with ⟨e, he⟩ | ⟨e, he⟩
    · exact ⟨e, Or.inl he⟩
    · exact ⟨e, Or.inr (Or.inr he)⟩
  · obtain ⟨l, hperm, hl⟩ := H.list
    rw [hlist]
    refine ⟨l, hperm, hl.congr fun y hy => hw _ ?_⟩
    rcases hcases y (hperm.mem_iff.1 hy) with ⟨e, he⟩ | ⟨e, he⟩
    · have hb := he.bounds
      have hm := (H.sized.left e he.mem).1
      unfold MIN at hm
      omega
    · have hb := he.bounds
      omega

/-- the two flags of a block, written -/
theorem words_setFlags (hS : (h.words o).toNat = S) (h40 : 40 ≤ S) (ho : o + S < LIMIT) (hk : k = h.setFree (ptr o) f) :
    (k.setFree (k.footerOf (ptr o)) f).words = Function.update
      (Function.update h.words (o + 8) (mark (h.words (o + 8)) f)) (o + S - 8) (mark (h.words (o + S - 8)) f) := by
  have hw : k.words = Function.update h.words (o + 8) (mark (h.words (o + 8)) f) := by
    rw [hk, words_setFree (by omega)]
  rw [words_footerFree (by rw [hw, Function.update_of_ne (by omega)]; exact hS) (by omega) ho, hw,
    Function.update_of_ne (by omega)]

/-- the block with its new flags -/
theorem tag_reflag {w : ℕ → U64} (ht : Tag h.words o c) (h40 : MIN ≤ c.size)
    (hw : w = Function.update (Function.update h.words (o + 8) (mark (h.words (o + 8)) f)) (o + c.size - 8)
      (mark (h.words (o + c.size - 8)) f)) : Tag w o ⟨c.size, f⟩ := by
  unfold MIN at h40
  refine ⟨?_, ?_, ?_, ?_⟩
  · rw [hw, Function.update_of_ne (by omega), Function.update_of_ne (by omega)]
    exact ht.size
  · rw [hw, Function.update_of_ne (by omega), Function.update_self, flag_mark]
  · dsimp only
    rw [hw, Function.update_of_ne (by omega), Function.update_of_ne (by omega)]
    exact ht.size'
  · dsimp only
    rw [hw, Function.update_self, flag_mark]

/-- the start of an allocated block is not on the list -/
theorem HeapInv.not_listed (H : HeapInv h cs) (hc : At 0 cs o c) (hf : c.free = false) : o ∉ frees 0 cs := by
  intro hm
  obtain ⟨e, he, hef⟩ := mem_frees.1 hm
  have hc40 := (H.sized c hc.mem).1
  have he40 := (H.sized e he.mem).1
  unfold MIN at hc40 he40
  rcases hc.apart he with ⟨-, rfl⟩ | hlt | hlt
  · rw [hf] at hef
    cases hef
  · omega
  · omega

/-- **`kfree`** of an allocated block. -/
theorem kfree_spec (H : HeapInv h cs) (hc : At 0 cs o c) (hf : c.free = false) : ∃ h' cs',
    h.kfree (ptr (o + 16)) = .ok h' ∧ HeapInv h' cs' ∧ (∀ y e, Used cs' y e ↔ Used cs y e ∧ y ≠ o) ∧
      flag (h'.words (o + 8)) = true ∧ (Merged cs → Merged cs') ∧ cs' ≠ [] := by
  have lc := H.low hc
  have htc := H.tags o c hc
  have hnot := H.not_listed hc hf
  obtain ⟨pre, post, rfl, ho⟩ := hc.split
  rw [Nat.zero_add] at ho
  subst ho
  have hblock : ptr (total pre + 16) - SIZEOF_BLOCK = ptr (total pre) := by
    rw [← ptr_add_16, BitVec.add_sub_cancel]
  have hfree : h.isFree (ptr (total pre)) = false := by rw [isFree_ptr (by omega), htc.free, hf]
  generalize hk : h.setFree (ptr (total pre)) true = k
  have hw := words_setFlags htc.size lc.2 lc.1 hk.symm
  generalize hk' : k.setFree (k.footerOf (ptr (total pre))) true = k' at hw
  have hkeep : ∀ a, a ≠ total pre + 8 → a ≠ total pre + c.size - 8 → k'.words a = h.words a := by
    intro a h1 h2
    rw [hw, Function.update_of_ne h2, Function.update_of_ne h1]
  have hcm := H.sized c hc.mem
  -- the block is free, and not on the list yet
  have H' : Listed k' (pre ++ ([⟨c.size, true⟩] ++ post)) (frees 0 (pre ++ c :: post)) := by
    refine replace_spec H hnot ?_ (sized_cons.2 ⟨hcm, sized_nil⟩) (by simp) ?_ ?_ fun a ha =>
      hkeep a (by omega) (by omega)
    · exact tagged_cons.2 ⟨tag_reflag htc hcm.1 hw, tagged_nil⟩
    · rw [← hk', ← hk]
      rfl
    · rw [← hk', ← hk]
      rfl
  rw [frees_append, frees_used hf, Nat.zero_add] at H'
  obtain ⟨h', cs', o', c', hco, Hinv, -, hat, -, -, hu, hflag, hm⟩ := coalesce_spec (c := ⟨c.size, true⟩) H' rfl
  refine ⟨h', cs', ?_, Hinv, fun y e => (hu y e).trans ?_, hflag, fun hcs => hm hcs.left hcs.right.tail,
    List.ne_nil_of_mem hat.mem⟩
  · unfold kfree
    rw [if_neg (ptr_ne_zero (by omega)), hblock]
    simp only
    rw [if_neg (by rw [hfree]; decide), hk, hk']
    exact hco
  · have hpre : ∀ {y e}, At 0 pre y e → y ≠ total pre := fun {y e} he => by
      have hb := he.bounds
      have hm := (H.sized.left e he.mem).1
      unfold MIN at hm
      omega
    have hpost : ∀ {y e}, At (total pre + c.size) post y e → y ≠ total pre := fun {y e} he => by
      have hb := he.bounds
      omega
    unfold Used
    show At 0 (pre ++ ⟨c.size, true⟩ :: post) y e ∧ e.free = false ↔ _
    simp only [at_append, at_cons, Nat.zero_add]
    constructor
    · rintro ⟨he | ⟨-, rfl⟩ | he, hef⟩
      · exact ⟨⟨Or.inl he, hef⟩, hpre he⟩
      · cases hef
      · exact ⟨⟨Or.inr (Or.inr he), hef⟩, hpost he⟩
    · rintro ⟨⟨he | ⟨rfl, -⟩ | he, hef⟩, hne⟩
      · exact ⟨Or.inl he, hef⟩
      · exact absurd rfl hne
      · exact ⟨Or.inr (Or.inr he), hef⟩

/-- a new block at the end -/
theorem append_spec (H : Listed h cs fs) (hc : MIN ≤ c.size ∧ 8 ∣ c.size) (htag : Tag h'.words (total cs) c)
    (hend : h'.heapEnd = ptr (total cs + c.size)) (hsmall : total cs + c.size ≤ 0xFFFFFFFF)
    (hlist : h'.freeList = h.freeList) (hw : ∀ a, a < total cs → h'.words a = h.words a) :
    Listed h' (cs ++ [c]) fs := by
  have htotal : total (cs ++ [c]) = total cs + c.size := by simp
  refine ⟨H.sized.append fun e he => ?_, ?_, by rw [htotal]; exact hend, by rw [htotal]; exact hsmall, H.nodup,
    fun y hy => ?_, ?_⟩
  · rw [List.mem_singleton] at he
    rw [he]
    exact hc
  · intro y e he
    rcases at_append.1 he with he | he
    · exact H.tags.congr H.sized (fun x _ hx _ => hw x (by omega)) y e he
    · rcases he with ⟨rfl, rfl⟩ | he
      · rw [Nat.zero_add]
        exact htag
      · exact absurd he at_nil
  · obtain ⟨e, he⟩ := H.starts y hy
    exact ⟨e, at_append.2 (Or.inl he)⟩
  · obtain ⟨l, hperm, hl⟩ := H.list
    rw [hlist]
    refine ⟨l, hperm, hl.congr fun y hy => hw _ ?_⟩
    obtain ⟨e, he⟩ := H.starts y (hperm.mem_iff.1 hy)
    have hb := he.bounds
    have hm := (H.sized e he.mem).1
    unfold MIN at hm
    omega

/-- what `grow_heap` does once the pages are mapped -/
theorem growHeap_mapped {pages : U64} {m : Machine} (H : HeapInv h cs) (hp : 1 ≤ pages.toNat)
    (hsmall : total cs + pages.toNat * 4096 ≤ 0xFFFFFFFF)
    (hm : (List.range pages.toNat).foldlM (growPage h.heapEnd) h.m = some m) :
    ∃ h' cs' o' c', h.growHeap pages = .ok h' ∧ HeapInv h' cs' ∧ h'.freeList = ptr o' ∧ At 0 cs' o' c' ∧
      c'.free = true ∧ pages.toNat * 4096 ≤ c'.size ∧ (∀ y e, Used cs' y e ↔ Used cs y e) ∧
        (Merged cs → Merged cs') := by
  have hlow : total cs < LIMIT := lt_of_le_of_lt H.small (by decide)
  have hvirt : h.heapEnd = ptr (total cs) := H.heapEnd
  have hP : (pages * PAGE_SIZE).toNat = pages.toNat * 4096 := by
    rw [BitVec.toNat_mul, show PAGE_SIZE.toNat = 4096 from rfl]
    omega
  have hmax : ¬ HEAP_MAX < ptr (total cs + pages.toNat * 4096) := by
    rw [BitVec.not_lt, BitVec.le_def, ptr_toNat (by unfold LIMIT; omega),
      show HEAP_MAX.toNat = 0xFFFF8000FFFFFFFF by decide]
    omega
  rw [hvirt] at hm
  unfold growHeap
  simp only [hvirt, ptr_add, hP]
  rw [if_neg hmax, hm]
  simp only
  generalize hh0 : ({ h with m := m, heapEnd := ptr (total cs + pages.toNat * 4096) } : Heap) = h0
  generalize hk : (h0.setSize (ptr (total cs)) (pages * PAGE_SIZE)).setFree (ptr (total cs)) true = k
  have hwk : k.size (ptr (total cs)) = pages * PAGE_SIZE := by
    rw [size_ptr hlow, ← hk, words_setFree (by unfold LIMIT; omega), words_setSize hlow,
      Function.update_of_ne (by omega), Function.update_self]
  rw [hwk]
  generalize hk' : k.setSize (k.footerOf (ptr (total cs))) (pages * PAGE_SIZE) = k'
  have hw := words_setTags (f := true) hP (by omega) (by unfold LIMIT; omega) hk.symm hk'.symm
  have hw0 : h0.words = h.words := by
    rw [← hh0]
    rfl
  rw [hw0] at hw
  generalize hk'' : k'.setFree (k'.footerOf (ptr (total cs))) true = k'' at hw
  have H' : Listed k'' (cs ++ [⟨pages.toNat * 4096, true⟩]) (frees 0 cs) := by
    refine append_spec H ⟨by unfold MIN; dsimp only; omega, Dvd.dvd.mul_left (by decide) _⟩
      (tag_set hP (by omega) hw) ?_ hsmall ?_ ?_
    · rw [← hk'', ← hk', ← hk, ← hh0]
      rfl
    · rw [← hk'', ← hk', ← hk, ← hh0]
      rfl
    · intro a ha
      rw [hw, Function.update_of_ne (by omega), Function.update_of_ne (by omega), Function.update_of_ne (by omega),
        Function.update_of_ne (by omega)]
  have hfs : frees 0 cs = frees 0 cs ++ frees (total cs + pages.toNat * 4096) [] := by rw [frees_nil, List.append_nil]
  rw [hfs] at H'
  obtain ⟨h2, cs', o', c', hco, Hinv, hlist, hat, hle, hf, hu, -, hmerged⟩ :=
    coalesce_spec (c := ⟨pages.toNat * 4096, true⟩) H' rfl
  refine ⟨h2, cs', o', c', hco, Hinv, hlist, hat, hf, hle, fun y e => (hu y e).trans ?_,
    fun hcs => hmerged hcs List.IsChain.nil⟩
  unfold Used
  simp only [at_append, at_cons, at_nil, or_false]
  constructor
  · rintro ⟨he | ⟨-, rfl⟩, hef⟩
    · exact ⟨he, hef⟩
    · cases hef
  · exact fun he => ⟨Or.inl he.1, he.2⟩

/-- **`grow_heap`.** It halts, or the heap has a free block of at least the size asked for at the head of the list. -/
theorem growHeap_cases {pages : U64} (H : HeapInv h cs) (hp : 1 ≤ pages.toNat) :
    h.growHeap pages = .error .outOfVirtual ∨ h.growHeap pages = .error .outOfPhysical ∨
      ∃ h' cs' o' c', h.growHeap pages = .ok h' ∧ HeapInv h' cs' ∧ h'.freeList = ptr o' ∧ At 0 cs' o' c' ∧
        c'.free = true ∧ pages.toNat * 4096 ≤ c'.size ∧ (∀ y e, Used cs' y e ↔ Used cs y e) ∧
          (Merged cs → Merged cs') := by
  by_cases hmax : HEAP_MAX < h.heapEnd + pages * PAGE_SIZE
  · left
    unfold growHeap
    simp only
    rw [if_pos hmax]
  · cases hm : (List.range pages.toNat).foldlM (growPage h.heapEnd) h.m with
    | none =>
      right
      left
      unfold growHeap
      simp only
      rw [if_neg hmax, hm]
    | some m =>
      -- the frames bound the pages, so the sums do not wrap
      have hcount := growPages_freeCount hm
      have hle := freeCount_le h.m.pmm
      have hs := H.small
      rw [List.length_range] at hcount
      unfold MAX_FRAMES at hle
      have hP : (pages * PAGE_SIZE).toNat = pages.toNat * 4096 := by
        rw [BitVec.toNat_mul, show PAGE_SIZE.toNat = 4096 from rfl]
        omega
      rw [H.heapEnd, ptr_add, hP, BitVec.not_lt, BitVec.le_def, ptr_toNat (by unfold LIMIT; omega),
        show HEAP_MAX.toNat = 0xFFFF8000FFFFFFFF by decide] at hmax
      exact Or.inr (Or.inr (growHeap_mapped H hp (by omega) hm))

theorem growHeap_spec {pages : U64} (H : HeapInv h cs) (hp : 1 ≤ pages.toNat) (hg : h.growHeap pages = .ok h') :
    ∃ cs' o' c', HeapInv h' cs' ∧ h'.freeList = ptr o' ∧ At 0 cs' o' c' ∧ c'.free = true ∧
      pages.toNat * 4096 ≤ c'.size ∧ (∀ y e, Used cs' y e ↔ Used cs y e) ∧ (Merged cs → Merged cs') := by
  rcases growHeap_cases H hp with he | he | ⟨h2, cs', o', c', hok, hres⟩
  · rw [hg] at he
    cases he
  · rw [hg] at he
    cases he
  · rw [hg] at hok
    cases hok
    exact ⟨cs', o', c', hres⟩

/-- one more block on the list, by its link and the head -/
theorem Listed.cons (H : Listed h cs fs) (hc : At 0 cs o c) (ho : o ∉ fs) (hw : h'.words = h.words)
    (hend : h'.heapEnd = h.heapEnd) (hlist : h'.freeList = ptr o) (hlink : h.words (o + 16) = h.freeList) :
    Listed h' cs (o :: fs) := by
  refine ⟨H.sized, by rw [hw]; exact H.tags, hend.trans H.heapEnd, H.small, List.nodup_cons.2 ⟨ho, H.nodup⟩, ?_, ?_⟩
  · intro y hy
    rcases List.mem_cons.1 hy with rfl | hy
    · exact ⟨c, hc⟩
    · exact H.starts y hy
  · obtain ⟨l, hperm, hl⟩ := H.list
    refine ⟨o :: l, hperm.cons o, hlist, ?_⟩
    rw [hw, hlink]
    exact hl

/-- **A block cut in two.** The second part is free and links to the old head of the list; of the first, only the sizes
are written. -/
theorem splitBlock_spec {t : U64} (hS : (h.words o).toNat = S) (ht : t.toNat = T) (h40 : 40 ≤ T) (hT : T + 40 ≤ S)
    (ho : o + S < LIMIT) : ∃ h', h.splitBlock (ptr o) t = h' ∧ Tag h'.words (o + T) ⟨S - T, true⟩ ∧ h'.words o = t ∧
      h'.words (o + T - 16) = t ∧ h'.words (o + T + 16) = h.freeList ∧ h'.freeList = ptr (o + T) ∧
        h'.heapEnd = h.heapEnd ∧ ∀ a, a < o ∨ o + S ≤ a → h'.words a = h.words a := by
  have hsize : h.size (ptr o) = h.words o := size_ptr (by omega)
  have hrem : (h.words o - t).toNat = S - T := by
    rw [BitVec.toNat_sub_of_le (by rw [BitVec.le_def]; omega), hS, ht]
  have hnew : ptr o + t = ptr (o + T) := by rw [ptr_add, ht]
  have hroom : h.words o - t ≥ MIN_BLOCK := by
    have hmin : MIN_BLOCK.toNat = 40 := by decide
    rw [ge_iff_le, BitVec.le_def, hrem]
    omega
  unfold splitBlock
  simp only [hsize, hnew]
  rw [if_pos hroom]
  generalize hk : (h.setSize (ptr (o + T)) (h.words o - t)).setFree (ptr (o + T)) true = k
  generalize hk' : k.setSize (k.footerOf (ptr (o + T))) (h.words o - t) = k'
  have hw := words_setTags (f := true) hrem (by omega) (by omega) hk.symm hk'.symm
  generalize hk2 : k'.setFree (k'.footerOf (ptr (o + T))) true = k2 at hw
  have htag : Tag k2.words (o + T) ⟨S - T, true⟩ := tag_set hrem (by omega) hw
  have hlist2 : k2.freeList = h.freeList := by
    rw [← hk2, ← hk', ← hk]
    rfl
  have hend2 : k2.heapEnd = h.heapEnd := by
    rw [← hk2, ← hk', ← hk]
    rfl
  generalize hk3 : k2.addBlockToFreeList (ptr (o + T)) = k3
  have hw3 : k3.words = Function.update (Function.update k2.words (o + T + 8) (mark (k2.words (o + T + 8)) true))
      (o + T + 16) h.freeList := by
    rw [← hk3, words_push (by omega), hlist2]
  generalize hk4 : k3.setSize (ptr o) t = k4
  have hw4 : k4.words = Function.update k3.words o t := by rw [← hk4, words_setSize (by omega)]
  have hw5 : (k4.setSize (k4.footerOf (ptr o)) t).words = Function.update k4.words (o + T - 16) t :=
    words_footerSize (by rw [hw4, Function.update_self, ht]) (by omega) (by omega)
  have hfinal : ∀ a, a ≠ o → a ≠ o + T - 16 → (k4.setSize (k4.footerOf (ptr o)) t).words a = k3.words a := by
    intro a h1 h2
    rw [hw5, Function.update_of_ne h2, hw4, Function.update_of_ne h1]
  have hpush : ∀ a, a ≠ o + T + 8 → a ≠ o + T + 16 → k3.words a = k2.words a := by
    intro a h1 h2
    rw [hw3, Function.update_of_ne h2, Function.update_of_ne h1]
  refine ⟨_, rfl, ⟨?_, ?_, ?_, ?_⟩, ?_, ?_, ?_, ?_, ?_, fun a ha => ?_⟩
  · rw [hfinal _ (by omega) (by omega), hpush _ (by omega) (by omega)]
    exact htag.size
  · rw [hfinal _ (by omega) (by omega), hw3, Function.update_of_ne (by omega), Function.update_self, flag_mark]
  · dsimp only
    rw [hfinal _ (by omega) (by omega), hpush _ (by omega) (by omega)]
    exact htag.size'
  · dsimp only
    rw [hfinal _ (by omega) (by omega), hpush _ (by omega) (by omega)]
    exact htag.free'
  · rw [hw5, Function.update_of_ne (by omega), hw4, Function.update_self]
  · rw [hw5, Function.update_self]
  · rw [hfinal _ (by omega) (by omega), hw3, Function.update_self]
  · calc k4.freeList = k3.freeList := by rw [← hk4]; rfl
      _ = ptr (o + T) := by rw [← hk3]; rfl
  · calc k4.heapEnd = k3.heapEnd := by rw [← hk4]; rfl
      _ = k2.heapEnd := by rw [← hk3]; rfl
      _ = h.heapEnd := hend2
  · rw [hfinal _ (by omega) (by omega), hpush _ (by omega) (by omega), hw, Function.update_of_ne (by omega),
      Function.update_of_ne (by omega), Function.update_of_ne (by omega), Function.update_of_ne (by omega)]

/-- the blocks after an allocation: one more is in use -/
def Took (cs cs' : List Cell) (x : ℕ) (d : Cell) : Prop := ∀ y e, Used cs' y e ↔ Used cs y e ∨ (y = x ∧ e = d)

/-- **A free block becomes the allocated one**, and perhaps a free rest. -/
theorem took_of_free {d : Cell} (hc : c.free = true) (hd : d.free = false) (hmid : ∀ e ∈ mid, e.free = true)
    (hlen : d.size + total mid = c.size) :
    Took (pre ++ c :: post) (pre ++ (d :: mid ++ post)) (total pre) d := by
  have hused : ∀ {a y e}, At a mid y e → e.free ≠ false := fun he hf => by
    rw [hmid _ he.mem] at hf
    cases hf
  have hpost : total pre + d.size + total mid = total pre + c.size := by omega
  intro y e
  unfold Used
  simp only [at_append, at_cons, Nat.zero_add, List.cons_append, hpost]
  constructor
  · rintro ⟨he | ⟨rfl, rfl⟩ | he | he, hf⟩
    · exact Or.inl ⟨Or.inl he, hf⟩
    · exact Or.inr ⟨rfl, rfl⟩
    · exact absurd hf (hused he)
    · exact Or.inl ⟨Or.inr (Or.inr he), hf⟩
  · rintro (⟨he | ⟨-, rfl⟩ | he, hf⟩ | ⟨rfl, rfl⟩)
    · exact ⟨Or.inl he, hf⟩
    · rw [hc] at hf
      cases hf
    · exact ⟨Or.inr (Or.inr (Or.inr he)), hf⟩
    · exact ⟨Or.inr (Or.inl ⟨rfl, rfl⟩), hd⟩

theorem merged_of_free {d : Cell} (h : Merged (pre ++ c :: post)) (hc : c.free = true) (hd : d.free = false)
    (hmid : mid = [] ∨ ∃ e, mid = [e] ∧ e.free = true) : Merged (pre ++ (d :: mid ++ post)) := by
  have hpost : Merged (c :: post) := h.right
  have hpre : Merged (pre ++ [d]) := h.left.snoc_used hd
  have hrest : Merged (mid ++ post) := by
    rcases hmid with rfl | ⟨e, rfl, he⟩
    · exact hpost.tail
    · exact hpost.cons_congr (he.trans hc.symm)
  rw [List.cons_append, merged_mid]
  exact ⟨hpre, hrest.cons_used hd⟩

/-- what `allocate_block` does with the block it took from the list -/
def taken (h : Heap) (block total : U64) : Heap :=
  let k := (h.splitBlock block total).setFree block false
  k.setFree (k.footerOf block) false

/-- **The block is cut**, and the rest is on the list. -/
theorem cut_spec {t : U64} (H : Listed h (pre ++ c :: post) fs) (hx : total pre ∉ fs) (hT : t.toNat = T) (h40 : 40 ≤ T)
    (h8 : 8 ∣ T) (hsplit : T + 40 ≤ c.size) : ∃ k', h.taken (ptr (total pre)) t = k' ∧
      Listed k' (pre ++ (⟨T, false⟩ :: [⟨c.size - T, true⟩] ++ post)) ((total pre + T) :: fs) := by
  have hc : At 0 (pre ++ c :: post) (total pre) c := by simp
  have hcd := H.sized c hc.mem
  have lc := H.low hc
  obtain ⟨h2, hsp, htr, hxt, hft, hlink, hlist, hend, hkeep⟩ := splitBlock_spec (H.tags _ _ hc).size hT h40 hsplit lc.1
  unfold taken
  rw [hsp]
  simp only
  generalize hk : h2.setFree (ptr (total pre)) false = k
  have hw := words_setFlags (by rw [hxt]; exact hT) h40 (by omega) hk.symm
  generalize hk' : k.setFree (k.footerOf (ptr (total pre))) false = k' at hw
  have hkeep' : ∀ a, a ≠ total pre + 8 → a ≠ total pre + T - 8 → k'.words a = h2.words a := by
    intro a ha hb
    rw [hw, Function.update_of_ne hb, Function.update_of_ne ha]
  have hlist' : k'.freeList = ptr (total pre + T) := by
    rw [← hlist, ← hk', ← hk]
    rfl
  have hend' : k'.heapEnd = h.heapEnd := by
    rw [← hend, ← hk', ← hk]
    rfl
  have hrest : MIN ≤ c.size - T := by
    unfold MIN
    omega
  -- the two parts in the place of the block, with the list as it was
  have H2 : Listed { k' with freeList := h.freeList } (pre ++ ([⟨T, false⟩, ⟨c.size - T, true⟩] ++ post)) fs := by
    refine replace_spec H hx ?_ ?_ (by simp; omega) hend' rfl fun a ha => ?_
    · refine tagged_cons.2 ⟨⟨?_, ?_, ?_, ?_⟩, tagged_cons.2 ⟨htr.congr ?_ fun a ha _ _ => ?_, tagged_nil⟩⟩
      · exact (congrArg BitVec.toNat ((hkeep' _ (by omega) (by omega)).trans hxt)).trans hT
      · exact (congrArg flag (congrFun hw _)).trans (by
          rw [Function.update_of_ne (by omega), Function.update_self, flag_mark])
      · exact (congrArg BitVec.toNat ((hkeep' _ (by omega) (by omega)).trans hft)).trans hT
      · exact (congrArg flag (congrFun hw _)).trans (by rw [Function.update_self, flag_mark])
      · exact hrest
      · exact hkeep' a (by omega) (by omega)
    · exact sized_cons.2 ⟨⟨h40, h8⟩, sized_cons.2 ⟨⟨hrest, Nat.dvd_sub hcd.2 h8⟩, sized_nil⟩⟩
    · exact (hkeep' a (by omega) (by omega)).trans (hkeep a (by omega))
  -- and the second on the list
  refine ⟨k', rfl, H2.cons (c := ⟨c.size - T, true⟩) (by simp) (fun hm => ?_) rfl rfl hlist' ?_⟩
  · obtain ⟨e, he⟩ := H.starts _ hm
    have he40 := (H.low he).2
    rcases hc.apart he with ⟨heq, -⟩ | hlt | hlt <;> omega
  · exact (hkeep' _ (by omega) (by omega)).trans hlink

/-- **The block is taken whole.** -/
theorem whole_spec {t : U64} (H : Listed h (pre ++ c :: post) fs) (hx : total pre ∉ fs) (hT : t.toNat = T)
    (hle : T ≤ c.size) (hsplit : ¬ T + 40 ≤ c.size) : ∃ k', h.taken (ptr (total pre)) t = k' ∧
      Listed k' (pre ++ ([⟨c.size, false⟩] ++ post)) fs := by
  have hc : At 0 (pre ++ c :: post) (total pre) c := by simp
  have hcd := H.sized c hc.mem
  have lc := H.low hc
  have hs : (h.words (total pre)).toNat = c.size := (H.tags _ _ hc).size
  have hwhole : h.splitBlock (ptr (total pre)) t = h := by
    have hrem : ¬ h.size (ptr (total pre)) - t ≥ MIN_BLOCK := by
      rw [size_ptr (by omega), ge_iff_le, BitVec.le_def,
        BitVec.toNat_sub_of_le (by rw [BitVec.le_def]; omega), hs, hT, show MIN_BLOCK.toNat = 40 by decide]
      omega
    unfold splitBlock
    simp only
    rw [if_neg hrem]
  unfold taken
  rw [hwhole]
  simp only
  generalize hk : h.setFree (ptr (total pre)) false = k
  have hw := words_setFlags hs lc.2 (by omega) hk.symm
  generalize hk' : k.setFree (k.footerOf (ptr (total pre))) false = k' at hw
  refine ⟨k', rfl, replace_spec H hx ?_ (sized_cons.2 ⟨hcd, sized_nil⟩) (by simp) ?_ ?_ fun a ha => ?_⟩
  · exact tagged_cons.2 ⟨tag_reflag (H.tags _ _ hc) hcd.1 hw, tagged_nil⟩
  · rw [← hk', ← hk]
    rfl
  · rw [← hk', ← hk]
    rfl
  · rw [hw, Function.update_of_ne (by omega), Function.update_of_ne (by omega)]

/-- **`allocate_block`** when a free block is large enough. -/
theorem allocateBlock_some {size : U64} (H : HeapInv h cs) (hT : (totalSize size).toNat = T) (h40 : 40 ≤ T) (h8 : 8 ∣ T)
    (hex : ∃ o c, At 0 cs o c ∧ c.free = true ∧ T ≤ c.size) : ∃ h' cs' x d,
      h.allocateBlock size = .ok (ptr x, h') ∧ HeapInv h' cs' ∧ x + 40 < LIMIT ∧ d.free = false ∧ T ≤ d.size ∧
        Took cs cs' x d ∧ (∀ e, ¬ Used cs x e) ∧ (Merged cs → Merged cs') := by
  have hfound : ∀ {o c}, At 0 cs o c → (decide (h.size (ptr o) ≥ totalSize size) = true ↔ T ≤ c.size) := by
    intro o c hc
    have lc := H.low hc
    rw [decide_eq_true_iff, size_ptr (by omega), ge_iff_le, BitVec.le_def, hT, (H.tags o c hc).size]
  obtain ⟨x, hx, prev, hfx, hwalk, H1, hw1⟩ := take_spec H (fun curr => h.size curr ≥ totalSize size) (by
    obtain ⟨o, c, hc, hf, hle⟩ := hex
    exact ⟨o, mem_frees.2 ⟨c, hc, hf⟩, (hfound hc).2 hle⟩)
  obtain ⟨c, hc, hcf⟩ := mem_frees.1 hx
  have hle := (hfound hc).1 hfx
  have lc := H.low hc
  have hnd := H.nodup
  have hunused : ∀ e, ¬ Used cs x e := by
    rintro e ⟨he, hef⟩
    rcases hc.apart he with ⟨-, rfl⟩ | hlt | hlt
    · rw [hcf] at hef
      cases hef
    · have := (H.low he).2
      omega
    · have := (H.low he).2
      omega
  obtain ⟨pre, post, rfl, hxo⟩ := hc.split
  rw [Nat.zero_add] at hxo
  subst hxo
  have hcd := (H.sized c hc.mem)
  have hfs : (frees 0 (pre ++ c :: post)).erase (total pre) = frees 0 pre ++ frees (total pre + c.size) post := by
    rw [frees_append, frees_free hcf, Nat.zero_add] at hnd ⊢
    have hnot := (List.nodup_cons.1 (List.nodup_middle.1 hnd)).1
    rw [List.erase_append_right _ fun hm => hnot (List.mem_append_left _ hm), List.erase_cons_head]
  have hxnot : total pre ∉ (frees 0 (pre ++ c :: post)).erase (total pre) := hnd.not_mem_erase
  have hstart : h.allocateBlock size = .ok (ptr (total pre),
      (h.removeBlockFromFreeList (ptr (total pre)) prev).taken (ptr (total pre)) (totalSize size)) := by
    unfold allocateBlock
    simp only
    rw [hwalk]
    rfl
  generalize h.removeBlockFromFreeList (ptr (total pre)) prev = h1 at *
  by_cases hsplit : T + 40 ≤ c.size
  · obtain ⟨k', hk', H2⟩ := cut_spec H1 hxnot hT h40 h8 hsplit
    have hfs' : ((total pre + T) :: (frees 0 (pre ++ c :: post)).erase (total pre)).Perm
        (frees 0 (pre ++ (⟨T, false⟩ :: [⟨c.size - T, true⟩] ++ post))) := by
      rw [hfs, frees_append, List.cons_append, frees_used rfl, List.singleton_append, frees_free rfl, Nat.zero_add,
        Nat.add_assoc (total pre), Nat.add_sub_cancel' (by omega)]
      exact List.perm_middle.symm
    have htook : Took (pre ++ c :: post) (pre ++ (⟨T, false⟩ :: [⟨c.size - T, true⟩] ++ post)) (total pre) ⟨T, false⟩ :=
      took_of_free hcf rfl (by simp) (by simp; omega)
    exact ⟨k', _, total pre, ⟨T, false⟩, hstart.trans (by rw [← hk']), H2.perm hfs', by omega, rfl, le_rfl, htook,
      hunused, fun hm => merged_of_free hm hcf rfl (Or.inr ⟨_, rfl, rfl⟩)⟩
  · obtain ⟨k', hk', H2⟩ := whole_spec H1 hxnot hT hle hsplit
    have hfs' : frees 0 (pre ++ ([⟨c.size, false⟩] ++ post)) = frees 0 pre ++ frees (total pre + c.size) post := by
      rw [frees_append, List.singleton_append, frees_used rfl, Nat.zero_add]
    rw [hfs, ← hfs'] at H2
    have hinv : HeapInv k' (pre ++ (⟨c.size, false⟩ :: [] ++ post)) := H2
    exact ⟨k', _, total pre, ⟨c.size, false⟩, hstart.trans (by rw [← hk']), hinv, by omega, rfl, hle,
      took_of_free hcf rfl (by simp) (by simp), hunused, fun hm => merged_of_free hm hcf rfl (Or.inl rfl)⟩

/-- and when none is -/
theorem allocateBlock_none {size : U64} (H : HeapInv h cs)
    (hno : ¬ ∃ o c, At 0 cs o c ∧ c.free = true ∧ (totalSize size).toNat ≤ c.size) :
    h.allocateBlock size = .ok (0, h) := by
  obtain ⟨l, hperm, hl⟩ := H.list
  have hwalk : h.walk (fun curr => h.size curr ≥ totalSize size) FUEL 0 h.freeList = some none := by
    refine walk_none hl (fun y hy => H.link_low (hperm.mem_iff.1 hy)) ?_ fun y hy => ?_
    · rw [hperm.length_eq]
      exact H.length_lt
    · obtain ⟨c, hc, hf⟩ := mem_frees.1 (hperm.mem_iff.1 hy)
      have lc := H.low hc
      apply decide_eq_false
      rw [size_ptr (by omega), ge_iff_le, BitVec.le_def, (H.tags y c hc).size]
      exact fun hle => hno ⟨y, c, hc, hf, hle⟩
  unfold allocateBlock
  simp only
  rw [hwalk]

/-! ### The size computations -/

theorem totalSize_toNat (size : U64) :
    (totalSize size).toNat = max 40 ((size.toNat + 39) % 2 ^ 64 / 8 * 8) := by
  have hmask : ALIGNMENT - 1 = BitVec.ofNat 64 (2 ^ 3 - 1) := by decide
  have hsum : size + SIZEOF_BLOCK + SIZEOF_BLOCK + ALIGNMENT - 1 = size + 39#64 := by
    unfold SIZEOF_BLOCK ALIGNMENT
    bv_omega
  have hround : (size + 39#64 &&& ~~~(ALIGNMENT - 1)).toNat = (size.toNat + 39) % 2 ^ 64 / 8 * 8 := by
    rw [hmask, and_not_low, BitVec.toNat_add]
    rfl
  have hmin : MIN_BLOCK.toNat = 40 := by decide
  unfold totalSize
  simp only [hsum]
  split_ifs with hlt
  · rw [BitVec.lt_def, hround, hmin] at hlt
    omega
  · rw [BitVec.lt_def, hround, hmin] at hlt
    omega

theorem totalSize_bounds (size : U64) : 40 ≤ (totalSize size).toNat ∧ 8 ∣ (totalSize size).toNat := by
  rw [totalSize_toNat]
  omega

/-- **The total covers the request** exactly when the sum does not wrap. -/
theorem totalSize_covers (size : U64) : size.toNat + 32 ≤ (totalSize size).toNat ↔ size.toNat ≤ 2 ^ 64 - 40 := by
  have hlt := size.isLt
  rw [totalSize_toNat]
  omega

/-- **The pages cover the total**, though they are counted from the sum before it is aligned. -/
theorem pagesFor_covers {size : U64} (hs : size.toNat ≤ 2 ^ 64 - 2 ^ 13) :
    (totalSize size).toNat ≤ (pagesFor size).toNat * 4096 := by
  have hsum : size + SIZEOF_BLOCK + SIZEOF_BLOCK + PAGE_SIZE - 1 = size + 4127#64 := by
    unfold SIZEOF_BLOCK PAGE_SIZE
    bv_omega
  have hdiv : ((size + 4127#64) / PAGE_SIZE).toNat = (size.toNat + 4127) / 4096 := by
    rw [BitVec.toNat_udiv, BitVec.toNat_add, show PAGE_SIZE.toNat = 4096 from rfl, show (4127#64).toNat = 4127 from rfl,
      Nat.mod_eq_of_lt (by omega)]
  rw [totalSize_toNat]
  unfold pagesFor
  simp only [hsum]
  split_ifs with h4
  · rw [hdiv]
    omega
  · rw [gt_iff_lt, BitVec.lt_def, hdiv, show (4 : U64).toNat = 4 from rfl] at h4
    rw [show (4 : U64).toNat = 4 from rfl]
    omega

theorem pagesFor_pos (size : U64) : 1 ≤ (pagesFor size).toNat := by
  have h4 : (4 : U64).toNat = 4 := rfl
  unfold pagesFor
  simp only
  split_ifs with hgt
  · rw [gt_iff_lt, BitVec.lt_def] at hgt
    omega
  · omega

/-! ### `kmalloc` -/

/-- **`allocate_block`**: the heap stays as it is, or gives a block. -/
theorem allocateBlock_spec (H : HeapInv h cs) (size : U64) : h.allocateBlock size = .ok (0, h) ∨
    ∃ h' cs' x d, h.allocateBlock size = .ok (ptr x, h') ∧ HeapInv h' cs' ∧ x + 40 < LIMIT ∧ d.free = false ∧
      (totalSize size).toNat ≤ d.size ∧ Took cs cs' x d ∧ (∀ e, ¬ Used cs x e) ∧ (Merged cs → Merged cs') := by
  by_cases hex : ∃ o c, At 0 cs o c ∧ c.free = true ∧ (totalSize size).toNat ≤ c.size
  · have hb := totalSize_bounds size
    exact Or.inr (allocateBlock_some H rfl hb.1 hb.2 hex)
  · exact Or.inl (allocateBlock_none H hex)

/-- **`kmalloc`.** What it returns points into a block that was not in use, as large as the total. -/
theorem kmalloc_spec {size p : U64} (H : HeapInv h cs) (hs : size ≠ 0) (hk : h.kmalloc size = .ok (p, h')) :
    ∃ cs' x d, p = ptr (x + 16) ∧ HeapInv h' cs' ∧ x + 40 < LIMIT ∧ d.free = false ∧ (totalSize size).toNat ≤ d.size ∧
      Took cs cs' x d ∧ (∀ e, ¬ Used cs x e) ∧ (Merged cs → Merged cs') := by
  unfold kmalloc at hk
  rw [if_neg hs] at hk
  rcases allocateBlock_spec H size with h1 | ⟨h1, cs1, x, d, hal, H1, hx, hd, hle, htook, hnot, hm1⟩
  · simp only [h1, bind, Except.bind, ne_eq, not_true_eq_false, if_false] at hk
    split at hk
    · cases hk
    · next h2 hg =>
      obtain ⟨cs2, -, -, H2, -, -, -, -, hu, hm2⟩ := growHeap_spec H (pagesFor_pos size) hg
      rcases allocateBlock_spec H2 size with h3 | ⟨h3, cs3, x, d, hal, H3, hx, hd, hle, htook, hnot, hm3⟩
      · simp only [h3, if_true] at hk
        cases hk
      · simp only [hal, if_neg (ptr_ne_zero (show x < LIMIT by omega)), pure, Except.pure] at hk
        cases hk
        exact ⟨cs3, x, d, ptr_add_16, H3, hx, hd, hle, fun y e => by rw [htook y e, hu y e], fun e he =>
          hnot e ((hu x e).2 he), fun hcs => hm3 (hm2 hcs)⟩
  · simp only [hal, bind, Except.bind, ne_eq, ptr_ne_zero (show x < LIMIT by omega), not_false_eq_true, if_true, pure,
      Except.pure] at hk
    cases hk
    exact ⟨cs1, x, d, ptr_add_16, H1, hx, hd, hle, htook, hnot, hm1⟩

/-- **Growing is enough.** -/
theorem allocateBlock_grown {size : U64} (H : HeapInv h cs) (hs : size.toNat ≤ 2 ^ 64 - 2 ^ 13)
    (hg : h.growHeap (pagesFor size) = .ok h') : ∃ p h2, h'.allocateBlock size = .ok (p, h2) ∧ p ≠ 0 := by
  obtain ⟨cs', o, c, H', -, hc, hf, hle, -⟩ := growHeap_spec H (pagesFor_pos size) hg
  have hb := totalSize_bounds size
  obtain ⟨h2, cs2, x, d, hal, -, hx, -⟩ := allocateBlock_some H' rfl hb.1 hb.2
    ⟨o, c, hc, hf, (pagesFor_covers hs).trans hle⟩
  exact ⟨ptr x, h2, hal, ptr_ne_zero (by omega)⟩

end Functions

end Retux.Heap
