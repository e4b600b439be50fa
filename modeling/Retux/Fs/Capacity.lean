/-
Whether the node table is large enough (`tarfs::mount`): 8 n + 16 nodes for n headers.

A node is needed for the root and for each of the non-empty prefixes of the headers' paths, once for all headers that
share it. An insertion that finds the table full stops half-way, and mount goes on.

- `admitted_all`: if the prefixes fit, every insertion goes through;
- `table_suffices_iff`: nothing is dropped if and only if they fit.
-/
import Mathlib.Tactic
import Retux.Fs.Extent

namespace Retux.Tar

open Retux.Word Retux.Bytes Retux.Str Retux.Vfs Retux.Path

/-- the non-empty prefixes of the paths -/
def prefixes (hs : List Header) : Finset (List (List U8)) :=
  ((hs.flatMap fun h => h.pieces.inits).filter (· ≠ [])).toFinset

/-- no allocation failed, and the last header for each path is in the path's node -/
structure Suffices (st : TarState) (hs : List Header) : Prop where
  never : st.full = false
  nodes : ∀ h ∈ hs, ∀ p, p <+: h.pieces → ∃ i, At st i p
  kept : ∀ p h, p ≠ [] → Owns hs p h → ∃ i, At st i p ∧ (st.nodes i).stamp = h.stamp

section Capacity

variable {base heap : ℕ → U8} {size cap : ℕ} {nodes : ℕ → TarNode} {st : TarState} {h : Header} {hs : List Header}
  {p q r : List (List U8)} {paths : List (List (List U8))} {S : List (List U8) → Stamp}

theorem mem_prefixes : p ∈ prefixes hs ↔ p ≠ [] ∧ ∃ h ∈ hs, p <+: h.pieces := by
  unfold prefixes
  rw [List.mem_toFinset, List.mem_filter, List.mem_flatMap, decide_eq_true_iff, and_comm]
  simp only [List.mem_inits]

/-! ## One path -/

theorem reach_nodup (hnd : paths.Nodup) : (reach cap paths p q).1.Nodup := by
  induction q generalizing paths p with
  | nil => exact hnd
  | cons c q ih =>
    rw [reach]
    split_ifs with hmem
    · exact ih hnd
    · exact ih (List.nodup_cons.2 ⟨hmem, hnd⟩)
    · exact hnd

theorem reach_sub (hr : r ∈ (reach cap paths p q).1) : r ∈ paths ∨ ∃ t, t ≠ [] ∧ t <+: q ∧ r = p ++ t := by
  induction q generalizing paths p with
  | nil => exact Or.inl hr
  | cons c q ih =>
    have hdeep : (∃ t, t ≠ [] ∧ t <+: q ∧ r = (p ++ [c]) ++ t) → ∃ t, t ≠ [] ∧ t <+: c :: q ∧ r = p ++ t := by
      rintro ⟨t, -, ht, rfl⟩
      exact ⟨c :: t, List.cons_ne_nil c t, List.cons_prefix_cons.2 ⟨rfl, ht⟩, by rw [List.append_assoc]; rfl⟩
    rw [reach] at hr
    split_ifs at hr
    · exact (ih hr).imp_right hdeep
    · rcases ih hr with hmem | hmem
      · rcases List.mem_cons.1 hmem with rfl | hmem
        · exact Or.inr ⟨[c], List.cons_ne_nil c [], List.cons_prefix_cons.2 ⟨rfl, List.nil_prefix⟩, rfl⟩
        · exact Or.inl hmem
      · exact Or.inr (hdeep hmem)
    · exact Or.inl hr

/-- an insertion that stops half-way leaves a full table, and a path that is not in it -/
theorem reach_fail (hr : (reach cap paths p q).2 = false) :
    cap ≤ (reach cap paths p q).1.length ∧ ∃ t, t ≠ [] ∧ t <+: q ∧ p ++ t ∉ (reach cap paths p q).1 := by
  induction q generalizing paths p with
  | nil => cases hr
  | cons c q ih =>
    have hdeep : ∀ {l : List (List (List U8))}, (∃ t, t ≠ [] ∧ t <+: q ∧ (p ++ [c]) ++ t ∉ l) →
        ∃ t, t ≠ [] ∧ t <+: c :: q ∧ p ++ t ∉ l := by
      rintro l ⟨t, -, ht, hnot⟩
      exact ⟨c :: t, List.cons_ne_nil c t, List.cons_prefix_cons.2 ⟨rfl, ht⟩, by rwa [List.append_assoc] at hnot⟩
    rw [reach] at hr ⊢
    split_ifs at hr ⊢ with hmem hroom
    · exact ⟨(ih hr).1, hdeep (ih hr).2⟩
    · exact ⟨(ih hr).1, hdeep (ih hr).2⟩
    · exact ⟨Nat.not_lt.1 hroom, [c], List.cons_ne_nil c [], List.cons_prefix_cons.2 ⟨rfl, List.nil_prefix⟩, hmem⟩

/-! ## All headers -/

/-- different paths, all of them among those counted: there are not more -/
theorem length_le_prefixes {Q : Finset (List (List U8))} (hnd : paths.Nodup) (hsub : ∀ p ∈ paths, p = [] ∨ p ∈ Q) :
    paths.length ≤ Q.card + 1 := by
  have hin : paths.toFinset ⊆ insert [] Q := fun p hp => Finset.mem_insert.2 (hsub p (List.mem_toFinset.1 hp))
  calc paths.length = paths.toFinset.card := (List.toFinset_card_of_nodup hnd).symm
    _ ≤ (insert [] Q).card := Finset.card_le_card hin
    _ ≤ Q.card + 1 := Finset.card_insert_le [] Q

/-- **Room for all prefixes is room for all headers.** -/
theorem admitted_all {Q : Finset (List (List U8))} (hcap : Q.card + 1 ≤ cap) (hnd : paths.Nodup)
    (hsub : ∀ p ∈ paths, p = [] ∨ p ∈ Q) (hhs : ∀ h ∈ hs, ∀ t, t ≠ [] → t <+: h.pieces → t ∈ Q) :
    admitted cap paths hs = hs := by
  induction hs generalizing paths with
  | nil => rfl
  | cons h hs ih =>
    have hsub' : ∀ p ∈ (reach cap paths [] h.pieces).1, p = [] ∨ p ∈ Q := fun p hp => by
      rcases reach_sub hp with hp | ⟨t, hne, ht, hpt⟩
      · exact hsub p hp
      · rw [hpt]
        exact Or.inr (hhs h (List.mem_cons_self ..) t hne ht)
    have hok : (reach cap paths [] h.pieces).2 = true := by
      by_contra hfail
      obtain ⟨hfull, t, hne, ht, hnot⟩ := reach_fail (Bool.not_eq_true _ ▸ hfail)
      -- the missing path would be one too many
      have hlen := length_le_prefixes (List.nodup_cons.2 ⟨hnot, reach_nodup hnd⟩) fun p hp => by
          rcases List.mem_cons.1 hp with hpt | hp
          · rw [hpt]
            exact Or.inr (hhs h (List.mem_cons_self ..) t hne ht)
          · exact hsub' p hp
      rw [List.length_cons] at hlen
      omega
    rw [admitted, if_pos hok, ih (reach_nodup hnd) hsub' fun x hx => hhs x (List.mem_cons_of_mem _ hx)]

theorem admitted_length : (admitted cap paths hs).length ≤ hs.length := by
  induction hs generalizing paths with
  | nil => exact le_rfl
  | cons h hs ih =>
    rw [admitted]
    split_ifs
    · exact Nat.succ_le_succ ih
    · exact Nat.le_succ_of_le ih

theorem fold_keeps : Keeps st (hs.foldl Header.insert st) := by
  induction hs generalizing st with
  | nil => exact Keeps.refl
  | cons h hs ih => exact Keeps.trans insertLoop_keeps ih

/-- an allocation has failed exactly if some insertion stopped half-way -/
theorem Table.insert_full (h0 : 0 ∉ h.path) (ht : Table st paths S) :
    (h.insert st).full = (st.full || !(reach st.capNodes paths [] h.pieces).2) := by
  obtain ⟨⟨kids, label, F, h', hp, rfl⟩, hnd⟩ := ht
  have hhead : (skipHead h.path).head? ≠ some SLASH := atBreak_dropWhile
  obtain ⟨-, -, -, -, -, -, -, hF⟩ := h'.insertLoop_reach h.stamp.isDir h.stamp.dataOffset h.stamp.size hp hnd
    h'.labelled.pos hhead (skipHead_text h0) le_rfl
  rwa [h'.labelled.root] at hF

/-- **No failure, no header dropped.** -/
theorem Table.fold_full (h0 : ∀ h ∈ hs, 0 ∉ h.path) (ht : Table st paths S) (hcap : st.capNodes = cap)
    (hfull : st.full = false) : (hs.foldl Header.insert st).full = false ↔ admitted cap paths hs = hs := by
  induction hs generalizing st paths S with
  | nil => exact ⟨fun _ => rfl, fun _ => hfull⟩
  | cons h hs ih =>
    have h1 := ht.insert (h0 h (List.mem_cons_self ..))
    have hF := ht.insert_full (h0 h (List.mem_cons_self ..))
    rw [hcap] at h1 hF
    rw [List.foldl_cons, admitted]
    cases hok : (reach cap paths [] h.pieces).2 with
    | true =>
      rw [hfull, hok] at hF
      rw [if_pos rfl, ih (fun x hx => h0 x (List.mem_cons_of_mem _ hx)) h1 (insert_cap.trans hcap) hF, List.cons_inj_right]
    | false =>
      rw [hfull, hok] at hF
      rw [if_neg (by decide)]
      constructor
      · intro hend
        rw [fold_keeps.full hF] at hend
        cases hend
      · intro heq
        have hlen := @admitted_length cap hs (reach cap paths [] h.pieces).1
        rw [heq, List.length_cons] at hlen
        omega

/-- **The table suffices, exactly when.** For any buffer that mount accepts: no allocation fails and no header is dropped
if and only if the headers' paths have at most 8 n + 15 different non-empty prefixes. -/
theorem table_suffices_iff (base heap : ℕ → U8) (size : ℕ) (nodes : ℕ → TarNode) (st : TarState)
    (hm : mount base size heap nodes = some st) : Suffices st (headers base size size 0) ↔
      (prefixes (headers base size size 0)).card ≤ 8 * (headers base size size 0).length + 15 := by
  obtain ⟨st₀, hnum, hroot, hcap, hfull, hst⟩ := mount_fold hm
  have htext : ∀ h ∈ headers base size size 0, 0 ∉ h.path := fun h hh => headers_text hh
  have hadm := (Table.root hnum hroot (by omega)).fold_full htext hcap hfull
  rw [← hst] at hadm
  obtain ⟨paths, ⟨⟨kids, label, F, h, hp, hS⟩, hnd⟩, hmem⟩ := mount_table hm
  have hroom : st.numNodes ≤ (headers base size size 0).length * 8 + 16 := by
    have hkeep := (@fold_keeps st₀ (headers base size size 0)).capNodes
    rw [← hst, hcap] at hkeep
    exact hkeep ▸ h.room
  -- a header that was kept has a node for each prefix
  have hnode : ∀ x ∈ kept base size, ∀ p, p <+: x.pieces → ∃ i < st.numNodes, label i = p := fun x hx p hpre => by
    by_cases hne : x.pieces = []
    · rw [hne, List.prefix_nil] at hpre
      exact ⟨0, h.labelled.pos, h.labelled.root.trans hpre.symm⟩
    · obtain ⟨i, hi, hl⟩ := (h.paths _).1 ((hp _).1 (hmem x hx hne))
      obtain ⟨q, hq⟩ := hpre
      exact h.labelled.node_above hi (hl.trans hq.symm)
  constructor
  · intro hs
    have hkept : kept base size = headers base size size 0 := hadm.1 hs.never
    have hin : insert [] (prefixes (headers base size size 0)) ⊆ paths.toFinset := fun p hpin => by
      rw [List.mem_toFinset, hp, h.paths]
      rcases Finset.mem_insert.1 hpin with rfl | hpin
      · exact ⟨0, h.labelled.pos, h.labelled.root⟩
      · obtain ⟨-, x, hx, hpre⟩ := mem_prefixes.1 hpin
        exact hnode x (hkept ▸ hx) p hpre
    have hcard := Finset.card_le_card hin
    rw [Finset.card_insert_of_notMem fun hm => (mem_prefixes.1 hm).1 rfl, List.toFinset_card_of_nodup hnd,
      h.length_paths hnd hp] at hcard
    omega
  · intro hle
    have hkept : kept base size = headers base size size 0 :=
      admitted_all (Q := prefixes (headers base size size 0)) (by omega) (List.nodup_singleton _)
        (fun p hp => Or.inl (List.mem_singleton.1 hp)) fun h hh t hne ht => mem_prefixes.2 ⟨hne, h, hh, ht⟩
    rw [hkept] at hnode hS
    refine ⟨hadm.2 hkept, fun x hx p hpre => ?_, fun p x hne ho => ?_⟩
    · obtain ⟨i, hi, hl⟩ := hnode x hx p hpre
      exact ⟨i, h.at_iff.2 ⟨hi, hl⟩⟩
    · obtain ⟨-, -, -, rfl, -⟩ := id ho
      obtain ⟨i, hi, hl⟩ := hnode x ho.mem _ List.prefix_rfl
      refine ⟨i, h.at_iff.2 ⟨hi, hl⟩, ?_⟩
      rw [h.stamps i hi, hS, hl, stamps_owns ho hne]

theorem table_suffices_sample : ∃ st, mount (oneFile [0x61]) 1024 (fun _ => 0) noNodes = some st ∧
    Suffices st (headers (oneFile [0x61]) 1024 1024 0) := by
  have hmount : (mount (oneFile [0x61]) 1024 (fun _ => 0) noNodes).map TarState.full = some false := rfl
  obtain ⟨st, hm, -⟩ := Option.map_eq_some_iff.1 hmount
  exact ⟨st, hm, (table_suffices_iff _ _ _ _ st hm).2 (by decide +kernel)⟩

end Capacity

/-! ## A deep path -/

/-- a/a/…/a, 24 names in 47 bytes -/
def deepName : List U8 := (List.replicate 23 [0x61, SLASH]).flatten ++ [0x61]

theorem deep_path_dropped : ∃ st, mount (oneFile deepName) 1024 (fun _ => 0) noNodes = some st ∧
    ¬ Suffices st (headers (oneFile deepName) 1024 1024 0) := by
  have hmount : (mount (oneFile deepName) 1024 (fun _ => 0) noNodes).map TarState.full = some true := by decide +kernel
  obtain ⟨st, hm, hfull⟩ := Option.map_eq_some_iff.1 hmount
  refine ⟨st, hm, fun hs => ?_⟩
  rw [hs.never] at hfull
  cases hfull

end Retux.Tar
