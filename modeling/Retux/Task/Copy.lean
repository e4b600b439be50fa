/-
Copies into user memory (`copy_to_user` in `task/user.cpp`).

The kernel does not store through the user's addresses: for each page it walks the tables (`virt_to_phys`) and stores
through the physmap, so the pages of a range may have any frames behind them.

- `chunk_copied`: one round, within a page;
- `Copied.append`: rounds compose, since no two pages have the same frame;
- `copyToUser_spec`: over mapped memory of the task's own the loop always ends, each byte lands behind its own address,
  no other byte of physical memory changes, and everything translates as before.
-/
import Mathlib.Tactic
import Retux.Mem.Access
import Retux.Sys.Mmap

namespace Retux.User

open Retux.Word Retux.Bytes Retux.Pmm Retux.Vmm Retux.Sys

/-! ## Model -/

/-- a memcpy to physical memory, through the physmap -/
def storePhys (m : Machine) (phys : U64) (xs : List U8) : Machine := { m with mem := setPhysBytes m.mem phys xs }

/-- `copy_to_user(user_addr, src, len)` from any round on. A round copies a byte at least: `len + 1` rounds are enough -/
def copyToUser (b : Mem) : ℕ → U64 → U64 → U64 → Machine → Option Machine
  | 0, _, _, _, _ => none
  | fuel + 1, va, src, remaining, m =>
    if remaining = 0 then some m
    else
      let pageBase := va &&& ~~~0xFFF#64
      let pageOff := va - pageBase
      let chunk := if 0x1000 - pageOff < remaining then 0x1000 - pageOff else remaining
      let kptr := virtToPhys m pageBase + pageOff
      copyToUser b fuel (va + chunk) (src + chunk) (remaining - chunk)
        (storePhys m kptr ((List.range chunk.toNat).map fun i => b.byte (nth src i)))

/-! ## What a copy should do -/

/-- a mapped address of the task's own -/
structure Mapped (m : Machine) (w : U64) : Prop where
  own : isPrivate w = true
  low : w.toNat < 2 ^ 47
  mapped : ∃ x, Vmm.translate m.mem (getPml4 m) w = some x

/-- the bytes xs 0, xs 1, .. are behind va, va + 1, .. (n of them), and nothing else has changed -/
structure Copied (m : Machine) (va : U64) (n : ℕ) (xs : ℕ → U8) (m' : Machine) : Prop where
  same : m' = { m with mem := m'.mem }
  translate : ∀ w, Vmm.translate m'.mem (getPml4 m) w = Vmm.translate m.mem (getPml4 m) w
  byte : ∀ i < n, physByte m'.mem (virtToPhys m (nth va i)) = xs i
  rest : ∀ p, (∀ i < n, virtToPhys m (nth va i) ≠ p) → physByte m'.mem p = physByte m.mem p

/-! ## Addresses of a page -/

section Page

variable {m m' m1 m2 : Machine} {rs : List ℕ} {X : Set ℕ} {va w w' : U64} {i k l n : ℕ} {xs ys : ℕ → U8}

/-- an address is its path and its offset -/
theorem path_inj (hw : w.toNat < 2 ^ 47) (hw' : w'.toNat < 2 ^ 47) (hp : pathOf w = pathOf w')
    (ho : w &&& 0xFFF = w' &&& 0xFFF) : w = w' := by
  have hlow : w.toNat % 4096 = w'.toNat % 4096 := by rw [← and_page, ← and_page, ho]
  simp only [pathOf, List.cons.injEq, and_true, tableIdx, Fin.mk.injEq] at hp
  apply BitVec.eq_of_toNat_eq
  omega

/-- where the bytes of a mapped page are -/
theorem virtToPhys_leaf {L : Layout} (hist : History L m rs X) (hr : getPml4 m ∈ rs) (h : Mapped m w) :
    ∃ e, Leaf L m (getPml4 m) (pathOf w) e ∧
      ∀ v, pathOf v = pathOf w → virtToPhys m v = entryPhys e + (v &&& 0xFFF) := by
  have hroot := (hist.roots _).1 hr
  obtain ⟨x, hx⟩ := h.mapped
  obtain ⟨e, hl, -⟩ := (translate_eq_some_iff hist.inv hroot h.own).1 hx
  refine ⟨e, hl, fun v hv => ?_⟩
  have hown : isPrivate v = true := (private_same hv).trans h.own
  have hat : Vmm.translate m.mem (getPml4 m) v = some (entryPhys e + (v &&& 0xFFF), leafFlags e) :=
    (translate_eq_some_iff hist.inv hroot hown).2 ⟨e, by rw [hv]; exact hl, rfl⟩
  rw [virtToPhys_eq, hat]
  rfl

/-- **No two addresses have one byte.** -/
theorem virtToPhys_inj (hb : Built m rs X) (hr : getPml4 m ∈ rs) (hw : Mapped m w) (hw' : Mapped m w')
    (he : virtToPhys m w = virtToPhys m w') : w = w' := by
  obtain ⟨L, hist⟩ := hb.history
  obtain ⟨e, -, hleaf⟩ := virtToPhys_leaf hist hr hw'
  obtain ⟨x, hx⟩ := hw.mapped
  obtain ⟨y, hy⟩ := hw'.mapped
  have hphys : ∀ {v z}, Vmm.translate m.mem (getPml4 m) v = some z → virtToPhys m v = z.1 := by
    intro v z hz
    rw [virtToPhys_eq, hz]
    rfl
  -- a frame is owned by one page
  have hframe : frameOf x.1 = frameOf y.1 := by rw [← hphys hx, ← hphys hy, he]
  have hpath := ((frame_own hb hr hw'.own hy).2.2 _ hr w x hw.own hx hframe).2
  rw [hleaf w hpath, hleaf w' rfl] at he
  exact path_inj hw.low hw'.low hpath ((BitVec.add_right_inj _).1 he)

/-! ## One round -/

/-- **Within a page.** What is stored behind a mapped address on its page is one piece of physical memory. -/
theorem chunk_copied (hb : Built m rs X) (hr : getPml4 m ∈ rs) (h : Mapped m va) (hk : va.toNat % 4096 + k ≤ 4096)
    (xs : ℕ → U8) {phys : U64} (hphys : phys = virtToPhys m (va &&& ~~~0xFFF#64) + (va - (va &&& ~~~0xFFF#64))) :
    Built (storePhys m phys ((List.range k).map xs)) rs X ∧
      Copied m va k xs (storePhys m phys ((List.range k).map xs)) := by
  obtain ⟨L, hist⟩ := hb.history
  have hroot := (hist.roots _).1 hr
  obtain ⟨e, hl, hleaf⟩ := virtToPhys_leaf hist hr h
  have ho := hl.own hist.inv
  have hlow := h.low
  -- the address on the frame
  have hdown : (va &&& ~~~0xFFF#64).toNat = va.toNat / 4096 * 4096 := and_not_page va
  have hstart : phys = virtToPhys m va := by
    have hoff : (va &&& ~~~0xFFF#64) &&& 0xFFF = 0#64 := aligned_offset (by rw [hdown]; omega)
    rw [hphys, hleaf _ (path_same (by rw [hdown]; omega)), hleaf va rfl, hoff, sub_page, BitVec.add_zero]
  have hpath : ∀ i < k, pathOf (nth va i) = pathOf va := fun i hi =>
    path_same (by rw [nth_toNat (by omega)]; omega)
  have hbytes : ∀ i < k, virtToPhys m (nth va i) = nth (virtToPhys m va) i := by
    intro i hi
    have hoff : (nth va i) &&& 0xFFF = nth (va &&& 0xFFF) i := by
      have hsmall := and_page va
      apply BitVec.eq_of_toNat_eq
      rw [and_page, nth_toNat (by omega), nth_toNat (by omega), hsmall]
      omega
    rw [hleaf _ (hpath i hi), hleaf va rfl, hoff, nth, nth, BitVec.add_assoc]
  have hframe : ∀ i < k, frameOf (nth (virtToPhys m va) i) = entryToKptr e := by
    intro i hi
    rw [← hbytes i hi, hleaf _ (hpath i hi)]
    exact frameOf_leaf hist.inv hl _
  rw [hstart]
  -- only that frame is written
  have hfill : storePhys m (virtToPhys m va) ((List.range k).map xs) =
      m.fill (entryToKptr e) (setPhysBytes m.mem (virtToPhys m va) ((List.range k).map xs) (entryToKptr e)) := by
    rw [storePhys, Machine.fill, Machine.mk.injEq]
    refine ⟨?_, rfl, rfl, rfl, rfl⟩
    funext f
    by_cases hf : f = entryToKptr e
    · rw [hf, Function.update_self]
    · rw [Function.update_of_ne hf]
      apply setPhysBytes_row
      intro i hi hfi
      rw [List.length_map, List.length_range] at hi
      exact hf (hfi.symm.trans (hframe i hi))
  refine ⟨?_, rfl, fun w => ?_, fun i hi => ?_, fun p hp => ?_⟩
  · rw [hfill]
    exact hb.write _ hr ((ownedLeaf_iff hist.inv hroot).2 ⟨_, rfl, ho⟩)
  · rw [hfill]
    exact translate_fill_leaf hist.inv hroot ho rfl _ w
  · have hlen : i < ((List.range k).map xs).length := by simpa using hi
    rw [hbytes i hi, storePhys, physByte_setBytes [], put_byte (by simp; omega) hlen, List.getElem_map,
      List.getElem_range]
  · rw [storePhys, physByte_setBytes [], put_rest]
    intro i hi hpi
    rw [List.length_map, List.length_range] at hi
    exact hp i hi ((hbytes i hi).trans hpi.symm)

/-! ## The loop -/

theorem Copied.pml4 (h : Copied m va n xs m') : getPml4 m' = getPml4 m := by
  rw [h.same]
  rfl

theorem Copied.virtToPhys (h : Copied m va n xs m') (w : U64) : virtToPhys m' w = Vmm.virtToPhys m w := by
  rw [virtToPhys_eq, virtToPhys_eq, h.pml4, h.translate]

theorem Copied.mapped (h : Copied m va n xs m') (hw : Mapped m w) : Mapped m' w := by
  obtain ⟨x, hx⟩ := hw.mapped
  refine ⟨hw.own, hw.low, x, ?_⟩
  rw [h.pml4, h.translate, hx]

theorem Copied.refl (m : Machine) (va : U64) (xs : ℕ → U8) : Copied m va 0 xs m :=
  ⟨rfl, fun _ => rfl, fun _ hi => absurd hi (Nat.not_lt_zero _), fun _ _ => rfl⟩

/-- **Two pieces.** The second does not touch the first. -/
theorem Copied.append (h1 : Copied m va k xs m1) (h2 : Copied m1 (nth va k) l (fun i => xs (k + i)) m2)
    (hinj : ∀ i < k + l, ∀ j < k + l, Vmm.virtToPhys m (nth va i) = Vmm.virtToPhys m (nth va j) → i = j) :
    Copied m va (k + l) xs m2 := by
  have hsecond : ∀ i, Vmm.virtToPhys m1 (nth (nth va k) i) = Vmm.virtToPhys m (nth va (k + i)) := by
    intro i
    rw [h1.virtToPhys, nth_add]
  refine ⟨?_, fun w => ?_, fun i hi => ?_, fun p hp => ?_⟩
  · rw [h2.same, h1.same]
  · have htr := h2.translate w
    rw [h1.pml4] at htr
    exact htr.trans (h1.translate w)
  · by_cases hik : i < k
    · rw [h2.rest, h1.byte i hik]
      intro j hj hij
      rw [hsecond] at hij
      have heq := hinj (k + j) (by omega) i hi hij
      omega
    · have hbyte := h2.byte (i - k) (by omega)
      rwa [hsecond, Nat.add_sub_cancel' (Nat.le_of_not_lt hik)] at hbyte
  · rw [h2.rest, h1.rest]
    · exact fun i hi => hp i (by omega)
    · intro j hj hpj
      rw [hsecond] at hpj
      exact hp (k + j) (by omega) hpj

/-- the size of a round -/
theorem chunk_toNat (va r : U64) (h0 : r ≠ 0) :
    let chunk := if 0x1000 - (va - (va &&& ~~~0xFFF#64)) < r then 0x1000 - (va - (va &&& ~~~0xFFF#64)) else r
    0 < chunk.toNat ∧ chunk.toNat ≤ r.toNat ∧ va.toNat % 4096 + chunk.toNat ≤ 4096 := by
  have hoff := and_page va
  have hpos : 0 < r.toNat := Nat.pos_of_ne_zero fun h => h0 (BitVec.eq_of_toNat_eq h)
  have hsub : (0x1000 - (va &&& 0xFFF) : U64).toNat = 4096 - va.toNat % 4096 := by
    have hle : va &&& 0xFFF ≤ 0x1000 := by
      rw [BitVec.le_def, hoff, show (0x1000 : U64).toNat = 4096 from rfl]
      omega
    rw [BitVec.toNat_sub_of_le hle, hoff]
    rfl
  intro chunk
  simp only [chunk, sub_page]
  split_ifs with hlt
  · rw [BitVec.lt_def, hsub] at hlt
    rw [hsub]
    omega
  · rw [BitVec.lt_def, hsub] at hlt
    omega

/-- **Copies into user memory.** -/
theorem copyToUser_spec (b : Mem) (src : U64) {fuel : ℕ} {r : U64} (hb : Built m rs X) (hr : getPml4 m ∈ rs)
    (hmap : ∀ i < r.toNat, Mapped m (nth va i)) (hend : va.toNat + r.toNat ≤ 2 ^ 47) (hfuel : r.toNat < fuel) :
    ∃ m', copyToUser b fuel va src r m = some m' ∧ Built m' rs X ∧
      Copied m va r.toNat (fun i => b.byte (nth src i)) m' := by
  induction fuel generalizing va src r m with
  | zero => exact absurd hfuel (Nat.not_lt_zero _)
  | succ fuel ih =>
    rw [copyToUser]
    by_cases h0 : r = 0
    · rw [if_pos h0, h0]
      exact ⟨m, rfl, hb, Copied.refl _ _ _⟩
    rw [if_neg h0]
    obtain ⟨hpos, hle, hpage⟩ := chunk_toNat va r h0
    simp only
    generalize (if 0x1000 - (va - (va &&& ~~~0xFFF#64)) < r then 0x1000 - (va - (va &&& ~~~0xFFF#64)) else r) = chunk
      at hpos hle hpage ⊢
    have hva : Mapped m va := by
      have h := hmap 0 (by omega)
      rwa [nth_zero] at h
    obtain ⟨hb1, hc1⟩ := chunk_copied hb hr hva hpage (fun i => b.byte (nth src i)) rfl
    generalize storePhys m (virtToPhys m (va &&& ~~~0xFFF#64) + (va - (va &&& ~~~0xFFF#64)))
      ((List.range chunk.toNat).map fun i => b.byte (nth src i)) = m1 at hb1 hc1 ⊢
    -- the rest of the range, after this round
    have hva1 : va + chunk = nth va chunk.toNat := by rw [nth, BitVec.ofNat_toNat, BitVec.setWidth_eq]
    have hsrc1 : src + chunk = nth src chunk.toNat := by rw [nth, BitVec.ofNat_toNat, BitVec.setWidth_eq]
    have hrest : (r - chunk).toNat = r.toNat - chunk.toNat := BitVec.toNat_sub_of_le (BitVec.le_def.2 hle)
    rw [hva1, hsrc1]
    have hr1 := hr
    rw [← hc1.pml4] at hr1
    have hmap1 : ∀ i < (r - chunk).toNat, Mapped m1 (nth (nth va chunk.toNat) i) := by
      intro i hi
      rw [nth_add]
      exact hc1.mapped (hmap _ (by omega))
    have hend1 : (nth va chunk.toNat).toNat + (r - chunk).toNat ≤ 2 ^ 47 := by
      rw [nth_toNat (by omega)]
      omega
    obtain ⟨m2, hm2, hb2, hc2⟩ := ih (nth src chunk.toNat) hb1 hr1 hmap1 hend1 (by omega)
    refine ⟨m2, hm2, hb2, ?_⟩
    have hsum : r.toNat = chunk.toNat + (r - chunk).toNat := by omega
    simp only [nth_add] at hc2
    rw [hsum]
    refine hc1.append hc2 fun i hi j hj hij => ?_
    have heq := virtToPhys_inj hb hr (hmap i (by omega)) (hmap j (by omega)) hij
    exact nth_inj (by omega) (by omega) heq

end Page

end Retux.User
