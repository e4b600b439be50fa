/-
Reading a list of records in pages. Nothing here names a particular program.

A server that keeps no cursor walks its records from the start on every call. `fill offset cap` skips those before the
stream position `offset` and then gives whole records until one no longer fits in `cap`. A client calls it at 0, then at
the sum of the lengths it got, until it gets nothing: `Paged read offset gs` says that it gets the groups of records gs.
`enc` is what a record looks like on the wire.

- `fit`: the longest run of records that fits, and `fill_eq`: what a call gives;
- `paged_fill`: the client gets every record once, in order, if each fits in a page and none is empty.
-/
import Mathlib.Tactic

namespace Retux.Paging

variable {α β : Type} (enc : α → List β)

/-- one call, from stream position pos on, with `out` given so far -/
def fill (offset cap : ℕ) : ℕ → List β → List α → List β
  | _, out, [] => out
  | pos, out, r :: rs =>
    if offset ≤ pos then
      if cap < out.length + (enc r).length then out else fill offset cap (pos + (enc r).length) (out ++ enc r) rs
    else fill offset cap (pos + (enc r).length) out rs

/-- the records that fit behind n bytes -/
def fit (cap : ℕ) : ℕ → List α → List α
  | _, [] => []
  | n, r :: rs => if cap < n + (enc r).length then [] else r :: fit cap (n + (enc r).length) rs

inductive Paged (read : ℕ → List β) : ℕ → List (List α) → Prop
  | done {offset : ℕ} : read offset = [] → Paged read offset []
  | page {offset : ℕ} {g : List α} {gs : List (List α)} : g.flatMap enc ≠ [] → read offset = g.flatMap enc →
      Paged read (offset + (g.flatMap enc).length) gs → Paged read offset (g :: gs)

variable {enc} {offset cap pos n : ℕ} {out : List β} {done rest rs : List α}

/-- the rest is what does not fit -/
theorem fit_append (cap n : ℕ) (rs : List α) : ∃ rest, rs = fit enc cap n rs ++ rest := by
  induction rs generalizing n with
  | nil => exact ⟨[], rfl⟩
  | cons r rs ih =>
    rw [fit]
    split_ifs with h
    · exact ⟨r :: rs, rfl⟩
    · obtain ⟨rest, hrest⟩ := ih (n + (enc r).length)
      exact ⟨rest, congrArg (List.cons r) hrest⟩

/-- a call stays within its buffer -/
theorem fill_length (hout : out.length ≤ cap) : (fill enc offset cap pos out rs).length ≤ cap := by
  induction rs generalizing pos out with
  | nil => exact hout
  | cons r rs ih =>
    rw [fill]
    split_ifs with ho hc
    · exact hout
    · exact ih (by rw [List.length_append]; omega)
    · exact ih hout

theorem fit_cons {r : α} (h : (enc r).length ≤ cap) : fit enc cap 0 (r :: rs) = r :: fit enc cap (enc r).length rs := by
  rw [fit, Nat.zero_add, if_neg (Nat.not_lt.2 h)]

theorem fill_past (h : offset ≤ pos) : fill enc offset cap pos out rs = out ++ (fit enc cap out.length rs).flatMap enc := by
  induction rs generalizing pos out with
  | nil => simp [fill, fit]
  | cons r rs ih =>
    rw [fill, if_pos h, fit]
    split_ifs with hc
    · simp
    · rw [ih (by omega), List.length_append, List.flatMap_cons, List.append_assoc]

theorem fill_skip (hne : ∀ r ∈ done, enc r ≠ []) :
    fill enc (pos + (done.flatMap enc).length) cap pos out (done ++ rest) =
      fill enc (pos + (done.flatMap enc).length) cap (pos + (done.flatMap enc).length) out rest := by
  induction done generalizing pos with
  | nil => rfl
  | cons r done ih =>
    have hr : 0 < (enc r).length := List.length_pos_iff.2 (hne r (List.mem_cons_self ..))
    have hsum : pos + ((r :: done).flatMap enc).length = pos + (enc r).length + (done.flatMap enc).length := by
      rw [List.flatMap_cons, List.length_append, Nat.add_assoc]
    rw [hsum, List.cons_append, fill, if_neg (by omega)]
    exact ih fun r' hr' => hne r' (List.mem_cons_of_mem _ hr')

/-- **A call.** Where a record starts, it gives the records that fit. -/
theorem fill_eq (hne : ∀ r ∈ done, enc r ≠ []) :
    fill enc (done.flatMap enc).length cap 0 [] (done ++ rest) = (fit enc cap 0 rest).flatMap enc := by
  calc fill enc (done.flatMap enc).length cap 0 [] (done ++ rest)
      = fill enc (0 + (done.flatMap enc).length) cap (0 + (done.flatMap enc).length) [] rest := by
        rw [← fill_skip hne, Nat.zero_add]
    _ = (fit enc cap 0 rest).flatMap enc := by
        rw [fill_past le_rfl]
        rfl

/-- no call before the last gives nothing -/
theorem Paged.length_le {read : ℕ → List β} {gs : List (List α)} (h : Paged enc read offset gs) :
    gs.length ≤ gs.flatten.length := by
  induction h with
  | done _ => exact Nat.le_refl 0
  | @page offset g gs hne _ _ ih =>
    have hg : g ≠ [] := fun h0 => hne (by rw [h0]; rfl)
    have := List.length_pos_iff.2 hg
    rw [List.length_cons, List.flatten_cons, List.length_append]
    omega

/-- **Paging.** Nothing is lost and nothing comes twice. -/
theorem paged_fill (hne : ∀ r ∈ rs, enc r ≠ []) (hcap : ∀ r ∈ rs, (enc r).length ≤ cap) :
    ∃ gs, gs.flatten = rs ∧ Paged enc (fun offset => fill enc offset cap 0 [] rs) 0 gs := by
  -- the calls that are left, after the records `done`
  have hrest : ∀ k done rest, rest.length ≤ k → done ++ rest = rs →
      ∃ gs, gs.flatten = rest ∧ Paged enc (fun offset => fill enc offset cap 0 [] rs) (done.flatMap enc).length gs := by
    intro k
    induction k with
    | zero =>
      intro done rest hk hrs
      obtain rfl := List.length_eq_zero_iff.1 (Nat.le_zero.1 hk)
      refine ⟨[], rfl, Paged.done ?_⟩
      subst hrs
      exact fill_eq fun r hr => hne r (List.mem_append_left _ hr)
    | succ k ih =>
      intro done rest hk hrs
      have hdone : ∀ r ∈ done, enc r ≠ [] := fun r hr => hne r (hrs ▸ List.mem_append_left _ hr)
      have hcall : fill enc (done.flatMap enc).length cap 0 [] rs = (fit enc cap 0 rest).flatMap enc := by
        rw [← hrs, fill_eq hdone]
      cases rest with
      | nil => exact ⟨[], rfl, Paged.done hcall⟩
      | cons r rest =>
        have hr : r ∈ rs := hrs ▸ List.mem_append_right _ (List.mem_cons_self ..)
        obtain ⟨rest', hsplit⟩ : ∃ rest', r :: rest = fit enc cap 0 (r :: rest) ++ rest' := fit_append _ _ _
        have hfirst : fit enc cap 0 (r :: rest) = r :: fit enc cap (enc r).length rest := fit_cons (hcap r hr)
        have hlen : rest'.length ≤ k := by
          have := congrArg List.length hsplit
          rw [hfirst] at this
          simp only [List.length_cons, List.length_append] at this hk
          omega
        obtain ⟨gs, hgs, hp⟩ := ih (done ++ fit enc cap 0 (r :: rest)) rest' hlen (by
          rw [List.append_assoc, ← hsplit, hrs])
        rw [List.flatMap_append, List.length_append] at hp
        refine ⟨fit enc cap 0 (r :: rest) :: gs, by rw [List.flatten_cons, hgs, ← hsplit], Paged.page ?_ hcall hp⟩
        rw [hfirst, List.flatMap_cons]
        exact fun h0 => hne r hr (List.append_eq_nil_iff.1 h0).1
  exact hrest rs.length [] rs le_rfl rfl

end Retux.Paging
