/-
The second half of `execve`: the arguments are copied to the new stack, and one of the two spaces is given up.

On a space, a copy is a change of bytes and no more (`Rewritten`): no two pages of a view share memory, so the chunks of
`copy_to_user` compose without a word about frames.

- `Staged.chunk`, `Staged.copy`: `copy_to_user` on the new space;
- `buildStack_staged`: the initial stack, or none;
- `Staged.create`, `Staged.back`, `Staged.give`: into the new space, back to the old one, and out of it for good;
- `execve_staged`: the ways through the call.
-/
import Mathlib.Tactic
import Retux.Task.Execve

namespace Retux.Execve

open Retux.Word Retux.Bytes Retux.Pmm Retux.Vmm Retux.Run Retux.SysV Retux.Elf Retux.User Retux.Sys Retux.Views
open Retux.Sched

/-! ## Bytes of a space -/

/-- the byte at an address -/
def peek (V : Space) (w : U64) : Option U8 := (V w).map fun p : Page => byteOf (p.data (wordIdx w)) (w.toNat % 8)

/-- V' is V with the bytes xs 0, xs 1, .. at va, va + 1, .. (n of them) -/
structure Rewritten (V V' : Space) (va : U64) (n : ℕ) (xs : ℕ → U8) : Prop where
  flags : ∀ w, (V' w).map Page.flags = (V w).map Page.flags
  byte : ∀ i < n, peek V' (nth va i) = some (xs i)
  rest : ∀ w, w.toNat < 2 ^ 47 → (∀ i < n, nth va i ≠ w) → peek V' w = peek V w
  off : ∀ w, (∀ i < n, pathOf (nth va i) ≠ pathOf w) → V' w = V w

section Copy

variable {s0 s s' : Sys} {base mine : List U64} {t : Task} {va w : U64} {V V' V1 : Space} {r c k l n : ℕ} {m' : Machine}
  {mem : ℕ → Idx → U64} {xs : ℕ → U8}

/-- a byte of a page is the byte of its frame -/
theorem physByte_frame (hc : c < MAX_FRAMES) (w : U64) :
    physByte mem (addrOf c + (w &&& 0xFFF)) = byteOf (mem c (wordIdx w)) (w.toNat % 8) := by
  have hlow : (addrOf c + (w &&& 0xFFF)).toNat % 4096 = w.toNat % 4096 := by
    rw [BitVec.toNat_add, and_page, addrOf_toNat hc]
    omega
  have hword : wordIdx (addrOf c + (w &&& 0xFFF)) = wordIdx w := Fin.ext (congrArg (· / 8) hlow)
  unfold physByte
  rw [(addrOf_add_offset hc w).1, hword]
  congr 1
  omega

theorem Rewritten.refl (V : Space) (va : U64) (xs : ℕ → U8) : Rewritten V V va 0 xs :=
  ⟨fun _ => rfl, fun _ hi => absurd hi (Nat.not_lt_zero _), fun _ _ _ => rfl, fun _ _ => rfl⟩

/-- two pieces, one after the other -/
theorem Rewritten.append (h1 : Rewritten V V1 va k xs) (h2 : Rewritten V1 V' (nth va k) l fun i => xs (k + i))
    (hend : va.toNat + (k + l) ≤ 2 ^ 47) : Rewritten V V' va (k + l) xs := by
  refine ⟨fun w => (h2.flags w).trans (h1.flags w), fun i hi => ?_, fun w hw hne => ?_, fun w hw => ?_⟩
  · by_cases hik : i < k
    · rw [h2.rest _ (by rw [nth_toNat (by omega)]; omega) fun j hj heq => ?_, h1.byte i hik]
      rw [nth_add] at heq
      have := nth_inj (by omega) (by omega) heq
      omega
    · have hbyte := h2.byte (i - k) (by omega)
      rwa [nth_add, Nat.add_sub_cancel' (Nat.le_of_not_lt hik)] at hbyte
  · rw [h2.rest w hw fun j hj => ?_, h1.rest w hw fun i hi => hne i (by omega)]
    rw [nth_add]
    exact hne (k + j) (by omega)
  · rw [h2.off w fun j hj => ?_, h1.off w fun i hi => hw i (by omega)]
    rw [nth_add]
    exact hw (k + j) (by omega)

/-- **One round**, within a page. -/
theorem Staged.chunk (h : Staged s0 base t (addrOf r) [r] V mine s) (hva : V va ≠ none) (hlow : va.toNat < 2 ^ 47)
    (hpos : 0 < k) (hk : va.toNat % 4096 + k ≤ 4096) {phys : U64}
    (hphys : phys = virtToPhys s.k.m (va &&& ~~~0xFFF#64) + (va - (va &&& ~~~0xFFF#64))) :
    ∃ V', Staged s0 base t (addrOf r) [r] V' mine (s.setM (storePhys s.k.m phys ((List.range k).map xs))) ∧
      Rewritten V V' va k xs := by
  have hroot := h.root
  have hV : view s.k.m r = V := h.seen r (List.mem_singleton_self r)
  have hv : isPrivate va = true := by
    by_contra hn
    rw [← hV] at hva
    unfold Views.view at hva
    rw [if_neg hn] at hva
    exact hva rfl
  have hsome : ∃ x, Vmm.translate s.k.m.mem (getPml4 s.k.m) va = some x := by
    rw [hroot]
    refine Option.ne_none_iff_exists'.1 fun hn => hva ?_
    rw [← hV]
    unfold Views.view
    rw [if_pos hv, hn]
    rfl
  obtain ⟨K, H, hz, L, X, hist, -⟩ := h.good.ready
  have hin : getPml4 s.k.m ∈ s.k.spaces := by
    rw [hroot]
    exact h.new (List.mem_singleton_self r)
  obtain ⟨e, hl, hleaf⟩ := virtToPhys_leaf hist hin ⟨hv, hlow, hsome⟩
  have hown := (hist.roots _).1 hin
  rw [hroot] at hl hown
  -- the frame, and where the page's addresses are on it
  have hclt : entryToKptr e < MAX_FRAMES := (hist.inv.own_used (hl.own hist.inv)).2.2
  have haddr : entryPhys e = addrOf (entryToKptr e) := entryPhys_eq hclt
  have hat : ∀ w, pathOf w = pathOf va →
      Vmm.translate s.k.m.mem r w = some (addrOf (entryToKptr e) + (w &&& 0xFFF), leafFlags e) := by
    intro w hw
    rw [← haddr]
    exact (translate_eq_some_iff hist.inv hown ((private_same hw).trans hv)).2 ⟨e, by rw [hw]; exact hl, rfl⟩
  have hold : ∀ w, pathOf w = pathOf va → V w = some ⟨leafFlags e, s.k.m.mem (entryToKptr e)⟩ := by
    intro w hw
    rw [← hV]
    unfold Views.view
    rw [if_pos ((private_same hw).trans hv), hat w hw, Option.map_some, (addrOf_add_offset hclt w).1]
  have hdown : (va &&& ~~~0xFFF#64).toNat = va.toNat / 4096 * 4096 := and_not_page va
  have hstart : phys = addrOf (entryToKptr e) + (va &&& 0xFFF) := by
    have hoff : (va &&& ~~~0xFFF#64) &&& 0xFFF = 0#64 := aligned_offset (by rw [hdown]; omega)
    rw [hphys, hleaf _ (path_same (by rw [hdown]; omega)), hoff, sub_page, BitVec.add_zero, haddr]
  have hpath : ∀ i < k, pathOf (nth va i) = pathOf va := fun i hi =>
    path_same (by rw [nth_toNat (by omega)]; omega)
  have hbytes : ∀ i < k, nth phys i = addrOf (entryToKptr e) + (nth va i &&& 0xFFF) := by
    intro i hi
    have hoff : (nth va i) &&& 0xFFF = nth (va &&& 0xFFF) i := by
      have hsmall := and_page va
      apply BitVec.eq_of_toNat_eq
      rw [and_page, nth_toNat (by omega), nth_toNat (by omega), hsmall]
      omega
    rw [hoff, hstart, nth, nth, BitVec.add_assoc]
  -- only that frame is written
  have hfill : storePhys s.k.m phys ((List.range k).map xs) = s.k.m.fill (entryToKptr e)
      (setPhysBytes s.k.m.mem phys ((List.range k).map xs) (entryToKptr e)) := by
    rw [storePhys, Machine.fill, Machine.mk.injEq]
    refine ⟨?_, rfl, rfl, rfl, rfl⟩
    funext f
    by_cases hf : f = entryToKptr e
    · rw [hf, Function.update_self]
    · rw [Function.update_of_ne hf]
      refine setPhysBytes_row fun i hi hfi => hf ?_
      rw [List.length_map, List.length_range] at hi
      rw [← hfi, hbytes i hi, (addrOf_add_offset hclt _).1]
  obtain ⟨p, hp, hst⟩ := h.fill hv (hat va rfl) (setPhysBytes s.k.m.mem phys ((List.range k).map xs) (entryToKptr e))
  rw [(addrOf_add_offset hclt va).1, ← hfill] at hst
  rw [hold va rfl] at hp
  obtain rfl := Option.some.inj hp
  have hnew : ∀ w, pathOf w = pathOf va → peek (put V va (some ⟨leafFlags e,
      setPhysBytes s.k.m.mem phys ((List.range k).map xs) (entryToKptr e)⟩)) w =
      some ((Mem.put ⟨physByte s.k.m.mem, []⟩ phys ((List.range k).map xs)).byte
        (addrOf (entryToKptr e) + (w &&& 0xFFF))) := by
    intro w hw
    unfold peek
    rw [put_on hw, Option.map_some, ← physByte_setBytes, physByte_frame hclt]
  refine ⟨_, hst, ⟨fun w => ?_, fun i hi => ?_, fun w hw hne => ?_, fun w hw => ?_⟩⟩
  · by_cases hpw : pathOf w = pathOf va
    · rw [put_on hpw, hold w hpw]
      rfl
    · rw [put_off hpw]
  · have hlen : i < ((List.range k).map xs).length := by simpa using hi
    rw [hnew _ (hpath i hi), ← hbytes i hi, put_byte (by simp; omega) hlen, List.getElem_map, List.getElem_range]
  · by_cases hpw : pathOf w = pathOf va
    · rw [hnew w hpw, put_rest fun i hi heq => ?_]
      · unfold peek
        rw [hold w hpw, Option.map_some, ← physByte_frame hclt]
      · -- one address of the page for each byte of the frame
        rw [List.length_map, List.length_range] at hi
        rw [hbytes i hi] at heq
        have hoff := (BitVec.add_right_inj _).1 heq
        have hi' : (nth va i).toNat = va.toNat + i := nth_toNat (by omega)
        exact hne i hi (path_inj (by omega) hw ((hpath i hi).trans hpw.symm) hoff.symm)
    · unfold peek
      rw [put_off hpw]
  · rw [put_off fun heq => hw 0 hpos ?_]
    rw [nth_zero]
    exact heq.symm

theorem Rewritten.mapped (h : Rewritten V V' va n xs) (hw : V w ≠ none) : V' w ≠ none := by
  intro hn
  have hf := h.flags w
  rw [hn] at hf
  exact hw (Option.map_eq_none_iff.1 hf.symm)

/-- **`copy_to_user` on the new space.** -/
theorem Staged.copy {b : Mem} {src rem : U64} {fuel : ℕ} (h : Staged s0 base t (addrOf r) [r] V mine s)
    (hmap : ∀ i < rem.toNat, V (nth va i) ≠ none) (hend : va.toNat + rem.toNat ≤ 2 ^ 47)
    (hc : copyToUser b fuel va src rem s.k.m = some m') :
    ∃ V', Staged s0 base t (addrOf r) [r] V' mine (s.setM m') ∧
      Rewritten V V' va rem.toNat fun i => b.byte (nth src i) := by
  induction fuel generalizing va src rem s V with
  | zero => cases hc
  | succ fuel ih =>
    rw [copyToUser] at hc
    by_cases h0 : rem = 0
    · rw [if_pos h0] at hc
      cases hc
      rw [h0]
      exact ⟨V, h, Rewritten.refl _ _ _⟩
    rw [if_neg h0] at hc
    obtain ⟨hpos, hle, hpage⟩ := chunk_toNat va rem h0
    simp only at hc
    generalize (if 0x1000 - (va - (va &&& ~~~0xFFF#64)) < rem then 0x1000 - (va - (va &&& ~~~0xFFF#64)) else rem) = chunk
      at hpos hle hpage hc
    have hva : V va ≠ none := by
      have h1 := hmap 0 (by omega)
      rwa [nth_zero] at h1
    have hround : ∃ V1, Staged s0 base t (addrOf r) [r] V1 mine _ ∧
        Rewritten V V1 va chunk.toNat fun i => b.byte (nth src i) := h.chunk hva (by omega) hpos hpage rfl
    obtain ⟨V1, h1, hw1⟩ := hround
    -- the rest of the range, after this round
    have hva1 : va + chunk = nth va chunk.toNat := by rw [nth, BitVec.ofNat_toNat, BitVec.setWidth_eq]
    have hsrc1 : src + chunk = nth src chunk.toNat := by rw [nth, BitVec.ofNat_toNat, BitVec.setWidth_eq]
    have hrest : (rem - chunk).toNat = rem.toNat - chunk.toNat := BitVec.toNat_sub_of_le (BitVec.le_def.2 hle)
    rw [hva1, hsrc1] at hc
    have hmap1 : ∀ i < (rem - chunk).toNat, V1 (nth (nth va chunk.toNat) i) ≠ none := by
      intro i hi
      rw [nth_add]
      exact hw1.mapped (hmap _ (by omega))
    have hend1 : (nth va chunk.toNat).toNat + (rem - chunk).toNat ≤ 2 ^ 47 := by
      rw [nth_toNat (by omega)]
      omega
    obtain ⟨V2, h2, hw2⟩ := ih h1 hmap1 hend1 hc
    have hsum : rem.toNat = chunk.toNat + (rem - chunk).toNat := by omega
    simp only [nth_add] at hw2
    refine ⟨V2, h2, ?_⟩
    rw [hsum]
    exact hw1.append hw2 (by omega)

/-- the stack is mapped -/
theorem Stacked.mapped (h : Stacked LINUX_STACK_PAGES V V') (h1 : LINUX_STACK_BASE.toNat ≤ w.toNat)
    (h2 : w.toNat < LINUX_STACK_TOP.toNat) : ∃ d, V' w = some ⟨USER_RW, d⟩ := by
  have htop := top_toNat
  have hstack := stackBase_toNat
  have hi : (w.toNat - LINUX_STACK_BASE.toNat) / 4096 < LINUX_STACK_PAGES := by
    unfold LINUX_STACK_PAGES
    omega
  refine h.page _ hi w (path_same ?_)
  rw [stackPage_toNat hi]
  omega

theorem total_ne_zero {argv envp : List KString} (ha : argv.length ≤ MAX_ARGC) (he : envp.length ≤ MAX_ENVC) :
    total argv envp ≠ 0 := by
  have htotal := total_toNat ha he
  have hlt := BitVec.isLt (arrSizeAligned (BitVec.ofNat 64 argv.length) (BitVec.ofNat 64 envp.length) +
    addSizes envp (addSizes argv 16))
  rw [htotal] at hlt
  intro h0
  have hsize := congrArg BitVec.toNat h0
  rw [User.total, BitVec.toNat_ofNat, Nat.mod_eq_of_lt hlt, blockSize_eq] at hsize
  simp at hsize

/-- **The initial stack.** Either the block does not fit, and nothing has changed, or it is on the stack. -/
theorem buildStack_staged {b : Mem} {tsc rsp : U64} {result : LoadResult} {argv envp : List KString}
    (h : Staged s0 base t (addrOf r) [r] V' mine s) (hst : Stacked LINUX_STACK_PAGES V V')
    (ha : argv.length ≤ MAX_ARGC) (he : envp.length ≤ MAX_ENVC)
    (hb : buildStack b tsc result argv envp s = some (rsp, s')) :
    (rsp = 0 ∧ LINUX_STACK_TOP.toNat - LINUX_STACK_BASE.toNat < blockSize argv envp ∧
      Staged s0 base t (addrOf r) [r] V' mine s') ∨
    (rsp ≠ 0 ∧ LINUX_STACK_BASE ≤ blockBase argv envp ∧ rsp = blockBase argv envp ∧
      (total argv envp).toNat = blockSize argv envp ∧ blockSize argv envp < 2 ^ 32 ∧
      ∃ scratch V1, Staged s0 base t (addrOf r) [r] V1 mine s' ∧
        Rewritten V' V1 rsp (blockSize argv envp) fun i =>
          (block b scratch tsc result argv envp).byte (nth scratch i)) := by
  obtain ⟨⟨scratch, s1⟩, hk, hrest⟩ := Option.bind_eq_some_iff.1 hb
  have h0 : scratch ≠ 0 := kmalloc_ne_zero h.good (total_ne_zero ha he) hk
  have h1 := h.kmalloc hk
  rw [if_neg h0] at h1
  simp only [if_neg h0] at hrest
  obtain ⟨⟨rsp', m⟩, hbuild, hrest⟩ := Option.bind_eq_some_iff.1 hrest
  obtain ⟨s2, hfree, heq⟩ := Option.bind_eq_some_iff.1 hrest
  obtain ⟨rfl, rfl⟩ := Prod.mk.inj (Option.some.inj heq)
  rw [buildLinuxStack_eq ha he] at hbuild
  obtain ⟨p, hp, hbuild⟩ := Option.bind_eq_some_iff.1 hbuild
  obtain ⟨hsize, hsmall, hp0⟩ := total_small ha he hp
  rw [if_neg hp0] at hbuild
  have hat := blockBase_toNat hsize hsmall
  have htop := top_toNat
  have hstack := stackBase_toNat
  by_cases hlow : blockBase argv envp < LINUX_STACK_BASE
  · rw [if_pos hlow] at hbuild
    obtain ⟨rfl, rfl⟩ := Prod.mk.inj (Option.some.inj hbuild)
    exact Or.inl ⟨rfl, (base_low_iff hsize hsmall).1 hlow, h1.kfree hfree⟩
  rw [if_neg hlow] at hbuild
  obtain ⟨m', hcopy, heq⟩ := Option.map_eq_some_iff.1 hbuild
  obtain ⟨rfl, rfl⟩ := Prod.mk.inj heq
  have hfits : LINUX_STACK_BASE ≤ blockBase argv envp := BitVec.not_lt.1 hlow
  have hge := BitVec.le_def.1 hfits
  have hmap : ∀ i < (total argv envp).toNat, V' (nth (blockBase argv envp) i) ≠ none := by
    intro i hi
    have hi' : (nth (blockBase argv envp) i).toNat = (blockBase argv envp).toNat + i := nth_toNat (by omega)
    obtain ⟨d, hd⟩ := hst.mapped (w := nth (blockBase argv envp) i) (by omega) (by omega)
    rw [hd]
    exact Option.some_ne_none _
  obtain ⟨V1, h2, hw⟩ := h1.copy hmap (by omega) hcopy
  rw [hsize] at hw
  refine Or.inr ⟨fun hz => ?_, hfits, rfl, hsize, hsmall, p, V1, h2.kfree hfree, hw⟩
  have hz' : blockBase argv envp = 0 := hz
  rw [hz'] at hge
  exact absurd hge (by decide)

end Copy

/-! ## Into the new space, and out of one -/

section Switch

variable {s0 s s' : Sys} {base mine : List U64} {t : Task} {a c : U64} {V : Space} {r r0 : ℕ} {m' : Machine}

/-- a space of the call's own, loaded -/
theorem Staged.create (h : Staged s0 base t c [] V mine s) (hc : createAddressSpace s.k.m = some (a, m'))
    (hs : s.act .create = some s') : ∃ r, a = addrOf r ∧ r ∉ s0.k.spaces ∧
      Staged s0 base { t with cr3 := a } (addrOf r) [r] (fun _ => none) mine (s'.switch a) := by
  obtain ⟨k1, hk1, rfl⟩ := Option.map_eq_some_iff.1 hs
  obtain ⟨r, rfl, hlt, hnew, -, -, -, -, -, hnone⟩ := h.good.ready.create hc
  have hspaces : s.k.spaces = s0.k.spaces := h.spaces
  have hg1 := (apply_step h.good hk1).1
  have hun1 := (apply_unseen h.good hk1 fun x hx => ⟨h.old hx, id⟩).1
  have hout1 := apply_outside h.good hk1
  have hk1' : k1 = { s.k.setM m' with spaces := frameOf (addrOf r) :: s.k.spaces } := by
    simp only [Views.apply, hc, Option.map_some, Option.some.injEq] at hk1
    exact hk1.symm
  rw [frameOf_addrOf hlt] at hk1'
  have hsp1 : k1.spaces = r :: s.k.spaces := by rw [hk1']
  have hm1 : k1.m = m' := by
    rw [hk1']
    rfl
  have hin : r ∈ k1.spaces := by
    rw [hsp1]
    exact List.mem_cons_self
  have hload : apply k1 (.load r) = some (k1.setM { k1.m with cr3 := addrOf r }) := by
    simp only [Views.apply]
    rw [if_pos hin]
  have hin0 : ∀ x ∈ s0.k.spaces, x ∈ k1.spaces := fun x hx => by
    rw [hsp1]
    exact List.mem_cons_of_mem r (h.old hx)
  refine ⟨r, rfl, hspaces ▸ hnew, (apply_step hg1 hload).1, ?_, rfl, ?_,
    (h.unseen.trans hun1).trans (apply_unseen hg1 hload fun x hx => ⟨hin0 x hx, id⟩).1, fun f => ?_, fun x hx => ?_, ?_⟩
  · rw [← h.self]
    rfl
  · show k1.spaces = _
    rw [hsp1, hspaces]
    rfl
  · refine (apply_outside hg1 hload f).trans ?_
    rw [hout1, h.out]
    simp [displaced, taken, Sys.switch]
  · rw [List.mem_singleton.1 hx]
    funext w
    show view { k1.m with cr3 := addrOf r } r w = none
    unfold Views.view
    split_ifs with hw
    · have hw' : Vmm.translate k1.m.mem r w = none := by
        rw [hm1]
        exact hnone w hw
      rw [hw', Option.map_none]
    · rfl
  · show k1.st.live.Perm _
    rw [hk1']
    exact h.live

/-- the old space again, and the new one gone -/
theorem Staged.back (h : Staged s0 base t (addrOf r) [r] V mine s) (hr0 : r0 ∈ s0.k.spaces) :
    Staged s0 base { t with cr3 := addrOf r0 } (addrOf r0) [] (fun _ => none) mine
      ((s.switch (addrOf r0)).destroy (addrOf r)) := by
  have hnd := ready_nodup h.good.ready
  rw [h.spaces] at hnd
  have hnew : r ∉ s0.k.spaces := (List.nodup_cons.1 hnd).1
  have hne : ∀ x ∈ s0.k.spaces, x ≠ r := by
    rintro x hx rfl
    exact hnew hx
  have hin : r ∈ s.k.spaces := h.new (List.mem_singleton_self r)
  have hlt : r < MAX_FRAMES := by
    obtain ⟨K, H, hz, L, X, hist, -⟩ := h.good.ready
    exact (hist.inv.own_used ((hist.roots r).1 hin)).2.2
  have hroot := (h.good.ready.load (h.old hr0)).2
  have hload : apply s.k (.load r0) = some (s.switch (addrOf r0)).k := by
    simp only [Views.apply]
    rw [if_pos (h.old hr0)]
    rfl
  have hg1 := (apply_step h.good hload).1
  have hdestroy : apply (s.switch (addrOf r0)).k (.destroy r) = some ((s.switch (addrOf r0)).destroy (addrOf r)).k := by
    have hok : r ∈ (s.switch (addrOf r0)).k.spaces ∧ getPml4 (s.switch (addrOf r0)).k.m ≠ r := by
      refine ⟨hin, fun heq => hne r0 hr0 ?_⟩
      exact hroot.symm.trans heq
    simp only [Views.apply]
    rw [if_pos hok]
    simp only [Sys.destroy, frameOf_addrOf hlt]
  have hout := apply_outside hg1 hdestroy
  refine ⟨(apply_step hg1 hdestroy).1, ?_, ?_, ?_,
    (h.unseen.trans (apply_unseen h.good hload fun x hx => ⟨h.old hx, id⟩).1).trans
      (apply_unseen hg1 hdestroy fun x hx => ⟨h.old hx, fun hon => hne x hx hon.symm⟩).1,
    fun f => ?_, fun x hx => absurd hx List.not_mem_nil, ?_⟩
  · rw [← h.self]
    rfl
  · show (destroyAddressSpace (addrOf r) (s.switch (addrOf r0)).k.m).cr3 = addrOf r0
    rw [(destroyAddressSpace_regs (addrOf r) (s.switch (addrOf r0)).k.m).1]
    rfl
  · show s.k.spaces.erase (frameOf (addrOf r)) = _
    rw [h.spaces, frameOf_addrOf hlt]
    exact List.erase_cons_head r _
  · rw [hout, apply_outside h.good hload, h.out]
    simp [displaced, taken, Sys.destroy, Sys.switch]
  · rw [Sys.destroy_live, Sys.destroy_drivers]
    exact h.live

theorem Staged.withSelf {t1 t' : Task} (h : Staged s0 base t c [r] V mine s) (ht : t1 = t') :
    Staged s0 base t' c [r] V mine { s with self := t1 } :=
  ⟨h.good, ht, h.cr3, h.spaces, h.unseen, h.out, h.seen, h.live⟩

end Switch

/-! ## The call -/

/-- the arguments as they are copied in -/
def args (argv : Option (List KString)) : List KString := (argv.getD []).take MAX_ARGC

def envs (envp : Option (List KString)) : List KString := (envp.getD []).take MAX_ENVC

/-- the stack has no room for the strings and their array -/
def TooBig (argv envp : Option (List KString)) : Prop :=
  LINUX_STACK_TOP.toNat - LINUX_STACK_BASE.toNat < blockSize (args argv) (envs envp)

/-- the task with the new image's fields -/
def renewed (t : Task) (result : LoadResult) : Task := setImage t result.highestAddr LINUX_MMAP_BASE

section Call

variable {s s' : Sys} {base : List U64} {r0 : ℕ} {fs : List U8 → Lookup} {b : Mem} {tsc : U64} {path : KString}
  {argv envp : Option (List KString)} {ret : Ret}

/-- the two ways back to the caller, and the way out of it -/
theorem execve_staged (hg : Good s.k) (hcr3 : s.k.m.cr3 = addrOf r0) (hself : s.self.cr3 = addrOf r0)
    (hr0 : r0 ∈ s.k.spaces) (hbase : s.k.st.live.Perm (s.drivers ++ base)) (hgrown : s.grown = ∅)
    (hsep : ∀ node, (fs path.chars).node = some node → Separate node)
    (hrun : sysExecve fs b tsc path argv envp s = some (ret, s')) :
    (ret = .errno (-ENOENT) ∧ program (fs path.chars) = none ∧
      Staged s base s.self (addrOf r0) [] (fun _ => none) [] s') ∨
    ∃ node result, program (fs path.chars) = some (node, result) ∧
      ((ret = .errno (-E2BIG) ∧ TooBig argv envp ∧
          Staged s base (renewed s.self result) (addrOf r0) [] (fun _ => none) [] s') ∨
        ∃ rsp r V1 V2 scratch s1, ret = .ring3 result.entry rsp ∧ ¬ TooBig argv envp ∧ r ∉ s.k.spaces ∧
          Staged s base { renewed s.self result with cr3 := addrOf r } (addrOf r) [r] V2 [] s1 ∧
          s' = s1.destroy (addrOf r0) ∧
          Stacked LINUX_STACK_PAGES (lay node.data (mapped node.data node.size) fun _ => none) V1 ∧
          LINUX_STACK_BASE ≤ rsp ∧ rsp = blockBase (args argv) (envs envp) ∧
          (total (args argv) (envs envp)).toNat = blockSize (args argv) (envs envp) ∧
          blockSize (args argv) (envs envp) < 2 ^ 32 ∧
          Rewritten V1 V2 rsp (blockSize (args argv) (envs envp)) fun i =>
            (block b scratch tsc result (args argv) (envs envp)).byte (nth scratch i)) := by
  have hargs : (args argv).length ≤ MAX_ARGC := List.length_take_le _ _
  have henvs : (envs envp).length ≤ MAX_ENVC := List.length_take_le _ _
  unfold sysExecve at hrun
  obtain ⟨chars, hpath, hrun⟩ := Option.bind_eq_some_iff.1 hrun
  have hchars : chars = path.chars := by
    unfold copyPath at hpath
    split_ifs at hpath
    exact (Option.some.inj hpath).symm
  subst hchars
  obtain ⟨⟨argvK, s1⟩, hargv, hrun⟩ := Option.bind_eq_some_iff.1 hrun
  obtain ⟨⟨envpK, s2⟩, henvp, hrun⟩ := Option.bind_eq_some_iff.1 hrun
  obtain ⟨⟨newCr3, m3⟩, hcreate, hrun⟩ := Option.bind_eq_some_iff.1 hrun
  obtain ⟨s3, hact, hrun⟩ := Option.bind_eq_some_iff.1 hrun
  obtain ⟨⟨loaded, s4⟩, hload, hrun⟩ := Option.bind_eq_some_iff.1 hrun
  -- the strings, and the new space
  have h0 : Staged s base s.self (addrOf r0) [] (fun _ => none) [] s :=
    ⟨hg, rfl, hcr3, rfl, Unseen.of_mem _ rfl, fun f => by rw [hgrown]; simp, fun r hr => absurd hr List.not_mem_nil, hbase⟩
  have h2 := copyStrings_staged (copyStrings_staged h0 hargv) henvp
  obtain ⟨r, rfl, hnew, h3⟩ := h2.create hcreate hact
  obtain ⟨hres, V, h4, hfree, hV⟩ := elfLoad_staged h3 hsep hload
  have hold : s2.self.cr3 = addrOf r0 := by rw [h2.self, hself]
  have hcopies : (envpK ++ (argvK ++ [])).Perm ((argvK ++ envpK) ++ []) := by
    rw [List.append_nil, List.append_nil]
    exact List.perm_append_comm
  cases hp : program (fs path.chars) with
  | none =>
    rw [hp] at hres
    rw [hres] at hrun
    obtain ⟨s5, hback, hrun⟩ := Option.bind_eq_some_iff.1 hrun
    cases hrun
    rw [hold] at hback
    have h5 := freeCopies_staged ((h4.back hr0).perm hcopies) hback
    have hsame : { s.self with cr3 := addrOf r0 } = s.self := by rw [← hself]
    refine Or.inl ⟨rfl, rfl, ?_⟩
    rw [← hsame]
    exact h5
  | some x =>
    obtain ⟨node, result⟩ := x
    rw [hp] at hres
    rw [hres] at hrun
    obtain ⟨m5, hstack, hrun⟩ := Option.bind_eq_some_iff.1 hrun
    obtain ⟨⟨rsp, s6⟩, hbuild, hrun⟩ := Option.bind_eq_some_iff.1 hrun
    obtain ⟨s7, hback, hrun⟩ := Option.bind_eq_some_iff.1 hrun
    obtain ⟨V1, h5, hV1⟩ := mapStack_staged h4 hfree hstack
    have hnewSelf : { (s4.setM m5).self with
        brkStart := result.highestAddr, brkCur := result.highestAddr, mmapNext := LINUX_MMAP_BASE } =
        { renewed s.self result with cr3 := addrOf r } := by
      rw [h5.self]
      rfl
    have h5' := h5.withSelf hnewSelf
    refine Or.inr ⟨node, result, rfl, ?_⟩
    rcases buildStack_staged h5' hV1 hargs henvs hbuild with ⟨rfl, hbig, h6⟩ | ⟨hne, hfits, hrsp, hsize, hsmall, scratch, V2, h6, hw⟩
    · have h7 := (freeCopies_staged (h6.perm hcopies) hback).back hr0
      simp only [if_pos] at hrun
      cases hrun
      have hsame : { { renewed s.self result with cr3 := addrOf r } with cr3 := addrOf r0 } = renewed s.self result := by
        rw [← hself]
        rfl
      refine Or.inl ⟨rfl, hbig, ?_⟩
      rw [← hsame, ← hold]
      rw [← hold] at h7
      exact h7
    · have h7 := freeCopies_staged (h6.perm hcopies) hback
      have hne0 : s2.self.cr3 ≠ 0 := by
        obtain ⟨K, H, hz, L, X, hist, -⟩ := hg.ready
        obtain ⟨-, hpos, hlt⟩ := hist.inv.own_used ((hist.roots r0).1 hr0)
        rw [hold]
        intro hz'
        have hnat := congrArg BitVec.toNat hz'
        rw [addrOf_toNat hlt, show (0 : U64).toNat = 0 from rfl] at hnat
        omega
      simp only [if_neg hne, if_neg hne0] at hrun
      cases hrun
      refine Or.inr ⟨rsp, r, V1, V2, scratch, s7, rfl, fun hbig => ?_, hnew, h7, by rw [hold], ?_, ?_, hrsp,
        hsize, hsmall, hw⟩
      · exact (BitVec.not_lt.2 hfits) ((base_low_iff hsize hsmall).2 hbig)
      · rw [← hV node result hp]
        exact hV1
      · rw [hrsp]
        exact hfits

/-! ## What it comes to -/

/-- a process calls from space r0 -/
structure Calls (s : Sys) (r0 : ℕ) : Prop where
  reached : ∃ (k : Kernel) (ops : List Views.Op), Starts k ∧ ops.foldlM apply k = some s.k
  loaded : s.k.m.cr3 = addrOf r0
  self : s.self.cr3 = addrOf r0
  space : r0 ∈ s.k.spaces
  drivers : s.drivers.Subperm s.k.st.live
  grown : s.grown = ∅

/-- the blocks are the same, but for the drivers' -/
def SameBlocks (s s' : Sys) : Prop :=
  ∀ p, p ∈ s'.k.st.live ∧ p ∉ s'.drivers ↔ p ∈ s.k.st.live ∧ p ∉ s.drivers

/-- everything is as it was: spaces, pages, frames but for those the heap took, and blocks but for the drivers' -/
structure Restored (s s' : Sys) : Prop where
  spaces : s'.k.spaces = s.k.spaces
  cr3 : s'.k.m.cr3 = s.k.m.cr3
  views : ∀ x ∈ s.k.spaces, view s'.k.m x = view s.k.m x
  frames : ∀ f, used s'.k.m f = true ↔ used s.k.m f = true ∨ f ∈ s'.grown
  blocks : SameBlocks s s'

theorem Calls.good (h : Calls s r0) : Good s.k := by
  obtain ⟨k, ops, hk, hops⟩ := h.reached
  exact run_good (starts_good hk).1 hops

theorem Calls.blocks (h : Calls s r0) : ∃ base, s.k.st.live.Perm (s.drivers ++ base) :=
  ⟨s.k.st.live.diff s.drivers, (List.subperm_append_diff_self_of_count_le
    fun x _ => h.drivers.count_le x).symm⟩

theorem sameBlocks (hg : Views.Good s.k) (hg' : Views.Good s'.k) (hbase : s.k.st.live.Perm (s.drivers ++ base))
    (hlive : s'.k.st.live.Perm (s'.drivers ++ base)) : SameBlocks s s' := by
  intro p
  obtain ⟨cs, -, O, -⟩ := hg.tidy
  obtain ⟨cs', -, O', -⟩ := hg'.tidy
  have h1 : p ∈ base → p ∉ s.drivers := fun hb hd =>
    (List.nodup_append.1 (hbase.nodup_iff.1 O.nodup)).2.2 p hd p hb rfl
  have h2 : p ∈ base → p ∉ s'.drivers := fun hb hd =>
    (List.nodup_append.1 (hlive.nodup_iff.1 O'.nodup)).2.2 p hd p hb rfl
  rw [hbase.mem_iff, hlive.mem_iff, List.mem_append, List.mem_append]
  tauto

theorem used_split (h : Good s.k) (f : ℕ) :
    used s.k.m f = true ↔ Outside s.k.m s.k.spaces f ∨ ∃ x ∈ s.k.spaces, Owned s.k.m x f := by
  obtain ⟨K, H, hz, L, X, hist, -⟩ := h.ready
  constructor
  · intro hu
    by_cases hex : ∃ x ∈ s.k.spaces, Owned s.k.m x f
    · exact Or.inr hex
    · exact Or.inl ⟨hu, fun x hx ho => hex ⟨x, hx, ho⟩⟩
  · rintro (⟨hu, -⟩ | ⟨x, hx, ho⟩)
    · exact hu
    · obtain ⟨p, hp⟩ := (owned_iff hist.inv ((hist.roots x).1 hx)).1 ho
      exact (hist.inv.own_used hp).1

/-- back in the caller -/
theorem Staged.restored {t : Task} {V : Space} (hg : Good s.k) (hcr3 : s.k.m.cr3 = addrOf r0)
    (hbase : s.k.st.live.Perm (s.drivers ++ base)) (h : Staged s base t (addrOf r0) [] V [] s') : Restored s s' := by
  have hspaces : s'.k.spaces = s.k.spaces := h.spaces
  refine ⟨hspaces, h.cr3.trans hcr3.symm, fun x hx => unseen_view h.unseen hx, fun f => ?_,
    sameBlocks hg h.good hbase h.live⟩
  have howned : (∃ x ∈ s.k.spaces, Owned s'.k.m x f) ↔ ∃ x ∈ s.k.spaces, Owned s.k.m x f :=
    exists_congr fun x => and_congr_right fun hx => h.unseen.owned x hx f
  have hout := h.out f
  rw [hspaces] at hout
  rw [used_split h.good, used_split hg, hspaces, hout, howned]
  exact or_right_comm

end Call

end Retux.Execve
