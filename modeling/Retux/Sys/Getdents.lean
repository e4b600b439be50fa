/-
`getdents64` (`sys_getdents64` in `cpu/syscall.cpp`).

Every call reads the whole directory again into a table of 32 entries, then writes records for the user from the entry
on at which `File::offset` stands. Names go into the table through `strncpy` with bound 47. With a longer name that copy
leaves the table (`Retux.Str`); `copyName` is none there, and so is a call that copies such a name.

A session is any sequence of calls on one open directory, with buffers of any sizes. The user takes each buffer apart by
d_reclen (`records`).

- `collect_eq`: what the table holds;
- `emitLoop_spec`: the records of one call;
- `session_run`: a session goes through the table once, in order;
- `getdents_iff`: it goes through the directory exactly if there are at most 32 entries, with names below 47 bytes.
-/
import Mathlib.Tactic
import Retux.Lib.Run
import Retux.Sys.Memory
import Retux.Fs.Drivers

namespace Retux.Getdents

open Retux.Word Retux.Bytes Retux.Str Retux.Paging Retux.Run Retux.Vfs Retux.Sys

/-! ## Model -/

def MAX_ENTRIES : ℕ := 32
/-- `sizeof(Ent::name)` -/
def NAME_SIZE : ℕ := 48

/-- `strncpy(entries[i].name, name, 47)` and the NUL behind -/
def copyName (name : List U8) : Option (List U8) := if name.length < NAME_SIZE - 1 then some name else none

/-- the loop over one chunk, with the table so far -/
def collectChunk (buf : ℕ → U8) (stop : ℕ) : ℕ → ℕ → List Dirent → Option (List Dirent)
  | 0, _, entries => some entries
  | fuel + 1, p, entries =>
    if p < stop ∧ entries.length < MAX_ENTRIES then
      let ino := word buf p
      let nameLen := strnlen buf (p + 8) CHUNK_SIZE
      (copyName ((List.range nameLen).map fun k => buf (p + 8 + k))).bind fun name =>
        collectChunk buf stop fuel (p + 8 + nameLen + 1) (entries ++ [⟨ino, name⟩])
    else some entries

/-- the chunk loop; every chunk has an entry at least, so a table's size is fuel enough -/
def collect (readdir : ℕ → Option (List U8)) : ℕ → ℕ → (ℕ → U8) → List Dirent → Option (List Dirent)
  | 0, _, _, entries => some entries
  | fuel + 1, vfsOff, buf, entries =>
    if entries.length < MAX_ENTRIES then
      match readdir vfsOff with
      | none => some entries
      | some page =>
        if page = [] then some entries
        else (collectChunk (place page buf) page.length page.length 0 entries).bind fun entries =>
          collect readdir fuel (vfsOff + page.length) (place page buf) entries
    else some entries

/-- `(19 + name_len + 1 + 7) & ~7` -/
def recLen (e : Dirent) : ℕ := (19 + e.name.length + 1 + 7) / 8 * 8

/-- d_ino, d_off, d_reclen, d_type, d_name -/
def record (e : Dirent) : List U8 := le 8 e.ino ++ le 8 0 ++ le 2 (BitVec.ofNat 64 (recLen e)) ++ [0] ++ e.name ++ [0]

/-- xs stored at index p -/
def putAt (out : ℕ → U8) (p : ℕ) (xs : List U8) (i : ℕ) : U8 :=
  if p ≤ i ∧ i < p + xs.length then xs.getD (i - p) 0 else out i

/-- the second loop, over the entries left: idx, written and the user's buffer -/
def emitLoop (count : ℕ) : List Dirent → ℕ → ℕ → (ℕ → U8) → ℕ × ℕ × (ℕ → U8)
  | [], idx, written, out => (idx, written, out)
  | e :: es, idx, written, out =>
    if written + recLen e > count then (idx, written, out)
    else emitLoop count es (idx + 1) (written + recLen e) (putAt out written (record e))

/-- what the call returns, `File::offset`, and the user's buffer -/
def sysGetdents64 (isDir : Bool) (readdir : ℕ → ℕ → Option (List U8)) (offset count : U64) (out vfsBuf : ℕ → U8) :
    Option (U64 × U64 × (ℕ → U8)) :=
  if isDir = false then some (-EINVAL, offset, out)
  else (collect (fun off => readdir off CHUNK_SIZE) (MAX_ENTRIES + 1) 0 vfsBuf []).map fun entries =>
    let r := emitLoop count.toNat (entries.drop offset.toNat) offset.toNat 0 out
    (BitVec.ofNat 64 r.2.1, BitVec.ofNat 64 r.1, r.2.2)

/-! ## Sessions -/

/-- the records in n bytes of a user's buffer: 8-byte aligned, each with its NUL, chained by d_reclen to the end -/
def records (out : ℕ → U8) (n : ℕ) : ℕ → ℕ → Option (List Dirent)
  | 0, p => if p = n then some [] else none
  | fuel + 1, p =>
    if p = n then some []
    else
      let reclen := field out (p + 16) 2
      let nameLen := strnlen out (p + 19) (reclen - 19)
      if n < p ∨ reclen % 8 ≠ 0 ∨ reclen < 19 + nameLen + 1 then none
      else (records out n fuel (p + reclen)).map fun es =>
        ⟨word out p, (List.range nameLen).map fun k => out (p + 19 + k)⟩ :: es

/-- a call's buffer and its size, and what lies on the kernel stack -/
structure Request where
  count : U64
  out : ℕ → U8
  vfsBuf : ℕ → U8

structure Session where
  offset : U64
  /-- what the last call returned -/
  returned : Option U64
  emitted : List Dirent

def start : Session := ⟨0, none, []⟩

def call (readdir : ℕ → ℕ → Option (List U8)) (s : Session) (q : Request) : Option Session := do
  let (n, offset, out) ← sysGetdents64 true readdir s.offset q.count q.out q.vfsBuf
  let ds ← records out n.toNat n.toNat 0
  return ⟨offset, some n, s.emitted ++ ds⟩

/-- the buffer has room for the next record -/
def Room (es : List Dirent) (s : Session) (q : Request) : Prop :=
  ∀ e, es[s.offset.toNat]? = some e → recLen e ≤ q.count.toNat

/-- the entries come once and in order, and all of them before a call returns 0, which one of the first
es.length + 1 does -/
def Complete (readdir : ℕ → ℕ → Option (List U8)) (es : List Dirent) : Prop :=
  ∀ qs, Each (call readdir) (Room es) start qs → ∃ s, qs.foldlM (call readdir) start = some s ∧
    s.emitted = es.take s.offset.toNat ∧ (s.returned = some 0 → s.emitted = es) ∧
    (es.length < qs.length → s.returned = some 0)

/-! ## The table -/

def Short (e : Dirent) : Prop := e.name.length < NAME_SIZE - 1

section Table

variable {buf : ℕ → U8} {p fuel stop : ℕ} {e : Dirent} {g g' t es : List Dirent}

theorem copyName_short (h : Short e) : copyName e.name = some e.name := if_pos h

theorem copyName_long (h : ¬ Short e) : copyName e.name = none := if_neg h

/-- what the source does: within the field if `copyName` gives a name, and over the byte behind it if not -/
theorem copyName_strncpy {m : Mem} {dest src : U64} {name : List U8} (hs : CString m.byte src name)
    (hsep : Apart dest src name.length) :
    (copyName name = some name ∧ strncpy m dest src 47 = m.put dest (name ++ List.replicate (47 - name.length) 0)) ∨
      (copyName name = none ∧ nth dest NAME_SIZE ∈ (strncpy m dest src 47).log) := by
  have h47 : (47 : U64).toNat = 47 := rfl
  by_cases h : name.length < 47
  · exact Or.inl ⟨if_pos h, strncpy_short hs hsep h⟩
  · exact Or.inr ⟨if_neg h, long_overruns (n := 47) (k := 1) hs hsep (Nat.not_lt.1 h) (by decide)⟩

/-- entries added to a table, as long as there is room -/
def addAll : List Dirent → List Dirent → Option (List Dirent)
  | t, [] => some t
  | t, e :: g => if t.length < MAX_ENTRIES then (copyName e.name).bind fun name => addAll (t ++ [⟨e.ino, name⟩]) g else some t

theorem addAll_full (h : ¬ t.length < MAX_ENTRIES) : addAll t g = some t := by
  cases g with
  | nil => rfl
  | cons e g => rw [addAll, if_neg h]

theorem addAll_append : addAll t (g ++ g') = (addAll t g).bind fun t => addAll t g' := by
  induction g generalizing t with
  | nil => rfl
  | cons e g ih =>
    rw [List.cons_append, addAll, addAll]
    split_ifs with h
    · cases copyName e.name with
      | none => rfl
      | some name => exact ih
    · exact (addAll_full h).symm

/-- **The table's content.** The entries that fit, if their names do. -/
theorem addAll_short (h : ∀ e ∈ g.take (MAX_ENTRIES - t.length), Short e) :
    addAll t g = some (t ++ g.take (MAX_ENTRIES - t.length)) := by
  induction g generalizing t with
  | nil => simp [addAll]
  | cons e g ih =>
    rw [addAll]
    split_ifs with hroom
    · obtain ⟨k, hk⟩ : ∃ k, MAX_ENTRIES - t.length = k + 1 := Nat.exists_eq_succ_of_ne_zero (by omega)
      rw [hk, List.take_succ_cons] at h ⊢
      have hnext : MAX_ENTRIES - (t ++ [e]).length = k := by
        rw [List.length_append, List.length_singleton]
        omega
      have hrest : addAll (t ++ [e]) g = some (t ++ [e] ++ g.take k) := by
        rw [ih fun e' he' => h e' (List.mem_cons_of_mem _ (hnext ▸ he')), hnext]
      rw [copyName_short (h e (List.mem_cons_self ..)), Option.bind_some, hrest, List.append_assoc]
      rfl
    · have h0 : MAX_ENTRIES - t.length = 0 := by omega
      rw [h0, List.take_zero, List.append_nil]

theorem addAll_long (h : ∃ e ∈ g.take (MAX_ENTRIES - t.length), ¬ Short e) : addAll t g = none := by
  induction g generalizing t with
  | nil => simp at h
  | cons e g ih =>
    have hroom : t.length < MAX_ENTRIES := by
      by_contra hfull
      have h0 : MAX_ENTRIES - t.length = 0 := by omega
      rw [h0] at h
      simp at h
    obtain ⟨k, hk⟩ : ∃ k, MAX_ENTRIES - t.length = k + 1 := Nat.exists_eq_succ_of_ne_zero (by omega)
    rw [hk, List.take_succ_cons] at h
    rw [addAll, if_pos hroom]
    by_cases hs : Short e
    · have hnext : MAX_ENTRIES - (t ++ [e]).length = k := by
        rw [List.length_append, List.length_singleton]
        omega
      obtain ⟨e', he', hlong⟩ := h
      rw [copyName_short hs, Option.bind_some]
      refine ih ⟨e', ?_, hlong⟩
      rw [hnext]
      exact (List.mem_cons.1 he').resolve_left fun heq => hlong (heq ▸ hs)
    · rw [copyName_long hs]
      rfl

theorem addAll_length {t' : List Dirent} (h : addAll t g = some t') (hg : g ≠ []) (ht : t.length < MAX_ENTRIES) :
    t.length < t'.length := by
  have hmono : ∀ {g t t'}, addAll t g = some t' → t.length ≤ t'.length := by
    intro g
    induction g with
    | nil =>
      intro t t' h
      cases h
      exact le_rfl
    | cons e g ih =>
      intro t t' h
      rw [addAll] at h
      split_ifs at h
      · obtain ⟨name, -, h⟩ := Option.bind_eq_some_iff.1 h
        have := ih h
        rw [List.length_append, List.length_singleton] at this
        omega
      · cases h
        exact le_rfl
  obtain ⟨e, g, rfl⟩ := List.exists_cons_of_ne_nil hg
  rw [addAll, if_pos ht] at h
  obtain ⟨name, -, h⟩ := Option.bind_eq_some_iff.1 h
  have := hmono h
  rw [List.length_append, List.length_singleton] at this
  omega

theorem collectChunk_eq (hg : ∀ e ∈ g, e.Valid) (h : Holds buf p (g.flatMap Dirent.enc))
    (hb : p + (g.flatMap Dirent.enc).length = stop) (hf : g.length ≤ fuel) :
    collectChunk buf stop fuel p t = addAll t g := by
  induction g generalizing p fuel t with
  | nil =>
    cases fuel with
    | zero => rfl
    | succ fuel => rw [collectChunk, if_neg (by simp at hb; omega), addAll]
  | cons e g ih =>
    cases fuel with
    | zero => exact absurd hf (by simp)
    | succ fuel =>
      rw [List.flatMap_cons] at h hb
      rw [List.length_append, enc_length] at hb
      have hv := hg e (List.mem_cons_self ..)
      obtain ⟨hino, hstr⟩ := record_eq h.left hv.1
      have hlen : strnlen buf (p + 8) CHUNK_SIZE = e.name.length := strnlen_eq hstr (le_trans hv.2 (by decide))
      have hrest := h.right
      rw [enc_length] at hrest
      have hlt : p < stop := by omega
      rw [collectChunk, addAll]
      by_cases hroom : t.length < MAX_ENTRIES
      · rw [if_pos ⟨hlt, hroom⟩, if_pos hroom]
        simp only [hlen, hino, hstr.bytes]
        refine congrArg (Option.bind _) (funext fun name => ?_)
        rw [show p + 8 + e.name.length + 1 = p + (e.name.length + 9) by omega]
        exact ih (fun e' he' => hg e' (List.mem_cons_of_mem _ he')) hrest (by omega) (Nat.le_of_succ_le_succ hf)
      · rw [if_neg fun hh => hroom hh.2, if_neg hroom]

/-- **Collecting the directory.** -/
theorem collect_paged {readdir : ℕ → Option (List U8)} {read : ℕ → List U8} {off : ℕ} {gs : List (List Dirent)}
    (h : Paged Dirent.enc read off gs) (hr : ∀ o, readdir o = some (read o)) (hv : ∀ e ∈ gs.flatten, e.Valid)
    (hf : MAX_ENTRIES - t.length < fuel) : collect readdir fuel off buf t = addAll t gs.flatten := by
  induction h generalizing fuel buf t with
  | @done off hnil =>
    obtain ⟨fuel, rfl⟩ := Nat.exists_eq_succ_of_ne_zero (Nat.ne_zero_of_lt hf)
    simp [collect, hr, hnil, addAll]
  | @page off g gs hne hread _ ih =>
    obtain ⟨fuel, rfl⟩ := Nat.exists_eq_succ_of_ne_zero (Nat.ne_zero_of_lt hf)
    rw [List.flatten_cons] at hv
    rw [List.flatten_cons, addAll_append, collect]
    by_cases hroom : t.length < MAX_ENTRIES
    · have hchunk : collectChunk (place (g.flatMap Dirent.enc) buf) (g.flatMap Dirent.enc).length
          (g.flatMap Dirent.enc).length 0 t = addAll t g :=
        collectChunk_eq (fun e he => hv e (List.mem_append_left _ he)) holds_place (Nat.zero_add _) length_le_flatMap
      simp only [if_pos hroom, hr, hread, if_neg hne, hchunk]
      cases hadd : addAll t g with
      | none => rfl
      | some t' =>
        have hg : g ≠ [] := fun h0 => hne (by rw [h0]; rfl)
        have hgrow := addAll_length hadd hg hroom
        exact ih (fun e he => hv e (List.mem_append_right _ he)) (by omega)
    · rw [if_neg hroom, addAll_full hroom, Option.bind_some, addAll_full hroom]

/-- what the table holds, for a directory of any driver -/
theorem collect_eq {readdir : ℕ → ℕ → Option (List U8)} (h : Directory readdir es) (hv : ∀ e ∈ es, e.Valid) :
    collect (fun off => readdir off CHUNK_SIZE) (MAX_ENTRIES + 1) 0 buf [] = addAll [] es := by
  have hcap : ∀ e ∈ es, e.enc.length ≤ CHUNK_SIZE := fun e he => by
    have := (hv e he).2
    rw [enc_length]
    exact le_trans (Nat.add_le_add_right this 9) (by decide)
  obtain ⟨gs, rfl, hp⟩ := paged_fill (fun e _ => enc_ne_nil) hcap
  exact collect_paged hp (fun o => h.fill o CHUNK_SIZE) hv (by rw [List.length_nil]; omega)

end Table

/-! ## The records of a call -/

/-- records one after the other -/
def Recorded (out : ℕ → U8) : ℕ → List Dirent → Prop
  | _, [] => True
  | p, e :: g => Holds out p (record e) ∧ Recorded out (p + recLen e) g

/-- the bytes of these records -/
def total (g : List Dirent) : ℕ := (g.map recLen).sum

/-- as long as its padded record -/
def pad (e : Dirent) : List Unit := List.replicate (recLen e) ()

section Emit

variable {out : ℕ → U8} {count written idx p n fuel : ℕ} {e : Dirent} {g es : List Dirent}

theorem record_length : (record e).length = 20 + e.name.length := by
  simp [record]
  omega

theorem recLen_bounds : 20 + e.name.length ≤ recLen e ∧ recLen e ≤ 27 + e.name.length ∧ recLen e % 8 = 0 := by
  unfold recLen
  omega

theorem length_le_total : g.length ≤ total g := by
  induction g with
  | nil => exact le_rfl
  | cons e g ih =>
    have := (recLen_bounds (e := e)).1
    unfold total at ih ⊢
    rw [List.map_cons, List.sum_cons, List.length_cons]
    omega

theorem putAt_holds {xs : List U8} : Holds (putAt out p xs) p xs := fun i hi => by
  rw [putAt, if_pos ⟨Nat.le_add_right _ _, Nat.add_lt_add_left hi p⟩, Nat.add_sub_cancel_left,
    List.getD_eq_getElem _ _ hi]

theorem putAt_below {xs : List U8} {i : ℕ} (hi : i < p) : putAt out p xs i = out i := if_neg fun h => by omega

/-- **The second loop.** -/
theorem emitLoop_spec (es : List Dirent) (idx : ℕ) (out : ℕ → U8) (hw : written ≤ count) :
    ∃ out', emitLoop count es idx written out =
        (idx + (fit pad count written es).length, written + total (fit pad count written es), out') ∧
      written + total (fit pad count written es) ≤ count ∧ (∀ i, i < written → out' i = out i) ∧
      Recorded out' written (fit pad count written es) := by
  induction es generalizing idx written out with
  | nil => exact ⟨out, rfl, hw, fun _ _ => rfl, trivial⟩
  | cons e es ih =>
    have hpad : (pad e).length = recLen e := by rw [pad, List.length_replicate]
    by_cases hc : count < written + recLen e
    · rw [emitLoop, fit, hpad, if_pos hc, if_pos hc]
      exact ⟨out, rfl, hw, fun _ _ => rfl, trivial⟩
    · rw [emitLoop, fit, hpad, if_neg hc, if_neg hc]
      obtain ⟨out', hrun, hle, hbelow, hrec⟩ := ih (idx + 1) (putAt out written (record e)) (Nat.not_lt.1 hc)
      have hlen := recLen_bounds (e := e)
      refine ⟨out', ?_, ?_, fun i hi => ?_, fun i hi => ?_, hrec⟩
      · rw [hrun, List.length_cons, total, total, List.map_cons, List.sum_cons]
        simp only [Prod.mk.injEq, and_true]
        omega
      · rw [total, List.map_cons, List.sum_cons, ← Nat.add_assoc]
        exact hle
      · rw [hbelow i (by omega), putAt_below hi]
      · have hi' := hi
        rw [record_length] at hi'
        rw [hbelow _ (by omega), putAt_holds i hi]

/-- a record in memory -/
theorem record_fields (h : Holds out p (record e)) (hv : 0 ∉ e.name) (hs : Short e) :
    word out p = e.ino ∧ field out (p + 16) 2 = recLen e ∧ IsStr out (p + 19) e.name := by
  have hb := recLen_bounds (e := e)
  have hshort : e.name.length < 47 := hs
  unfold record at h
  have hname : Holds out (p + 19) (e.name ++ [0]) := by
    rw [List.append_assoc _ e.name] at h
    simpa using h.right
  have hlen : Holds out (p + 16) (le 2 (BitVec.ofNat 64 (recLen e))) := by
    simpa using h.left.left.left.right
  refine ⟨word_eq h.left.left.left.left.left, ?_, Holds.isStr hname hv⟩
  rw [hlen.field, BitVec.toNat_ofNat]
  omega

/-- **Reading them back.** -/
theorem records_eq (h : Recorded out p g) (hg : ∀ e ∈ g, e.Valid ∧ Short e) (hn : p + total g = n)
    (hf : g.length ≤ fuel) : records out n fuel p = some g := by
  induction g generalizing p fuel with
  | nil =>
    have hp : p = n := hn
    cases fuel with
    | zero => rw [records, if_pos hp]
    | succ fuel => rw [records, if_pos hp]
  | cons e g ih =>
    obtain ⟨fuel, rfl⟩ := Nat.exists_eq_succ_of_ne_zero (Nat.ne_zero_of_lt hf)
    obtain ⟨hv, hs⟩ := hg e (List.mem_cons_self ..)
    obtain ⟨hino, hlen, hstr⟩ := record_fields h.1 hv.1 hs
    have hb := recLen_bounds (e := e)
    rw [total, List.map_cons, List.sum_cons, ← Nat.add_assoc] at hn
    have hname : strnlen out (p + 19) (recLen e - 19) = e.name.length := strnlen_eq hstr (by omega)
    rw [records, if_neg (by omega)]
    simp only [hlen, hname, hino, hstr.bytes]
    rw [if_neg (by omega), ih h.2 (fun e' he' => hg e' (List.mem_cons_of_mem _ he')) hn (Nat.le_of_succ_le_succ hf)]
    rfl

end Emit

/-! ## Sessions over a table -/

/-- after n calls -/
structure SessionInv (T : List Dirent) (n : ℕ) (s : Session) : Prop where
  offset : s.offset.toNat ≤ T.length
  emitted : s.emitted = T.take s.offset.toNat
  done : s.returned = some 0 → s.offset.toNat = T.length
  progress : s.returned = some 0 ∨ n ≤ s.offset.toNat

section Session

variable {readdir : ℕ → ℕ → Option (List U8)} {T es : List Dirent} {s s' : Session} {q : Request} {n : ℕ}

/-- every call finds the table T -/
structure Tabled (readdir : ℕ → ℕ → Option (List U8)) (T : List Dirent) : Prop where
  collects : ∀ buf, collect (fun off => readdir off CHUNK_SIZE) (MAX_ENTRIES + 1) 0 buf [] = some T
  names : ∀ e ∈ T, e.Valid ∧ Short e
  length : T.length ≤ MAX_ENTRIES

/-- **A call.** It gives the next entries, one at least if there is one. -/
theorem call_spec (h : Tabled readdir T) (hroom : Room T s q) :
    ∃ g rest, T.drop s.offset.toNat = g ++ rest ∧ (g = [] → T.drop s.offset.toNat = []) ∧ total g < 2 ^ 64 ∧
      call readdir s q = some ⟨BitVec.ofNat 64 (s.offset.toNat + g.length), some (BitVec.ofNat 64 (total g)),
        s.emitted ++ g⟩ := by
  generalize hg : fit pad q.count.toNat 0 (T.drop s.offset.toNat) = g
  obtain ⟨rest, hsplit⟩ : ∃ rest, T.drop s.offset.toNat = g ++ rest := hg ▸ fit_append _ _ _
  obtain ⟨out, hrun, hle, -, hrec⟩ := emitLoop_spec (T.drop s.offset.toNat) s.offset.toNat q.out (Nat.zero_le q.count.toNat)
  rw [hg, Nat.zero_add] at hrun hle
  rw [hg] at hrec
  have hcount := q.count.isLt
  have hmem : ∀ e ∈ g, e ∈ T := fun e he => List.mem_of_mem_drop (hsplit ▸ List.mem_append_left _ he)
  have htotal : (BitVec.ofNat 64 (total g)).toNat = total g := by
    rw [BitVec.toNat_ofNat]
    exact Nat.mod_eq_of_lt (by omega)
  refine ⟨g, rest, hsplit, fun h0 => ?_, by omega, ?_⟩
  · cases hd : T.drop s.offset.toNat with
    | nil => rfl
    | cons e es =>
      have he : T[s.offset.toNat]? = some e := by
        rw [← Nat.add_zero s.offset.toNat, ← List.getElem?_drop, hd]
        rfl
      have hpad : (pad e).length = recLen e := by rw [pad, List.length_replicate]
      rw [hd, fit_cons (hpad ▸ hroom e he)] at hg
      rw [h0] at hg
      cases hg
  · unfold call sysGetdents64
    simp only [bind, pure, Bool.true_eq_false, if_false, h.collects, Option.map_some, Option.bind_some, hrun, htotal]
    rw [records_eq hrec (fun e he => h.names e (hmem e he)) (Nat.zero_add _) length_le_total, Option.bind_some]

theorem call_inv (h : Tabled readdir T) (hi : SessionInv T n s) (hroom : Room T s q) :
    ∃ s', call readdir s q = some s' ∧ SessionInv T (n + 1) s' := by
  obtain ⟨g, rest, hsplit, hnil, htotal, hcall⟩ := call_spec h hroom
  have hlen : T.length - s.offset.toNat = g.length + rest.length := by
    rw [← List.length_drop, hsplit, List.length_append]
  have hoff := hi.offset
  have hmax := h.length
  have hoffset : (BitVec.ofNat 64 (s.offset.toNat + g.length)).toNat = s.offset.toNat + g.length := by
    unfold MAX_ENTRIES at hmax
    rw [BitVec.toNat_ofNat]
    exact Nat.mod_eq_of_lt (by omega)
  have hzero : (some (BitVec.ofNat 64 (total g)) = some (0 : U64)) → g = [] := by
    intro h0
    have ht : (BitVec.ofNat 64 (total g)).toNat = 0 := congrArg BitVec.toNat (Option.some.inj h0)
    rw [BitVec.toNat_ofNat, Nat.mod_eq_of_lt htotal] at ht
    have hg : g.length ≤ total g := length_le_total
    exact List.length_eq_zero_iff.1 (by omega)
  refine ⟨_, hcall, ⟨?_, ?_, fun h0 => ?_, ?_⟩⟩
  · simp only [hoffset]
    omega
  · simp only [hoffset]
    rw [hi.emitted, List.take_add, hsplit, List.take_left]
  · simp only [hoffset]
    have hdrop := hnil (hzero h0)
    rw [List.drop_eq_nil_iff] at hdrop
    rw [hzero h0, List.length_nil]
    omega
  · simp only [hoffset]
    cases g with
    | nil => exact Or.inl rfl
    | cons e g =>
      refine Or.inr ?_
      rw [List.length_cons] at hlen ⊢
      rcases hi.progress with hdone | hprog
      · have := hi.done hdone
        omega
      · omega

/-- **A session.** -/
theorem session_run (h : Tabled readdir T) (qs : List Request) (hi : SessionInv T n s)
    (hq : Each (call readdir) (Room T) s qs) :
    ∃ s', qs.foldlM (call readdir) s = some s' ∧ SessionInv T (n + qs.length) s' := by
  induction qs generalizing n s with
  | nil => exact ⟨s, rfl, hi⟩
  | cons q qs ih =>
    obtain ⟨s1, h1, hi1⟩ := call_inv h hi hq.1
    obtain ⟨s', hs, hi'⟩ := ih hi1 (hq.2 s1 h1)
    refine ⟨s', ?_, ?_⟩
    · rw [List.foldlM_cons, h1]
      exact hs
    · rw [List.length_cons, Nat.add_comm qs.length, ← Nat.add_assoc]
      exact hi'

theorem start_inv : SessionInv T 0 start :=
  ⟨Nat.zero_le _, rfl, fun h0 => (by cases h0), Or.inr (Nat.zero_le _)⟩

/-! ## The directory -/

/-- the table can hold the directory -/
def Fits (es : List Dirent) : Prop := es.length ≤ MAX_ENTRIES ∧ ∀ e ∈ es, Short e

/-- a table that holds what it can of a directory with short names -/
theorem tabled_take (h : Directory readdir es) (hv : ∀ e ∈ es, e.Valid) (hs : ∀ e ∈ es.take MAX_ENTRIES, Short e) :
    Tabled readdir (es.take MAX_ENTRIES) := by
  refine ⟨fun buf => ?_, fun e he => ⟨hv e (List.mem_of_mem_take he), hs e he⟩, List.length_take_le _ _⟩
  rw [collect_eq h hv]
  exact addAll_short hs

theorem complete_of_fits (h : Directory readdir es) (hv : ∀ e ∈ es, e.Valid) (hfits : Fits es) :
    Complete readdir es := by
  have htake : es.take MAX_ENTRIES = es := List.take_of_length_le hfits.1
  have ht := tabled_take h hv (by rw [htake]; exact hfits.2)
  rw [htake] at ht
  intro qs hq
  obtain ⟨s, hs, hi⟩ := session_run ht qs start_inv hq
  refine ⟨s, hs, hi.emitted, fun h0 => ?_, fun hlt => ?_⟩
  · rw [hi.emitted, hi.done h0, List.take_length]
  · refine hi.progress.resolve_right fun hle => ?_
    have := hi.offset
    omega

/-- buffers with room for any record -/
def bigRequest : Request := ⟨512, fun _ => 0, fun _ => 0⟩

theorem big_room (hv : ∀ e ∈ es, e.Valid) (k : ℕ) :
    Each (call readdir) (Room es) start (List.replicate k bigRequest) := by
  have hbig : Each (call readdir) (fun _ q => q = bigRequest) start (List.replicate k bigRequest) :=
    each_of_forall fun q hq => List.eq_of_mem_replicate hq
  refine each_of_each (I := fun _ => True) (fun _ _ _ _ _ _ => trivial) (fun s q _ hq e he => ?_) trivial hbig
  have := (hv e (List.mem_of_getElem? he)).2
  have := (recLen_bounds (e := e)).2.1
  rw [hq, show bigRequest.count.toNat = 512 by rfl]
  omega

theorem fits_of_complete (h : Directory readdir es) (hv : ∀ e ∈ es, e.Valid) (hc : Complete readdir es) : Fits es := by
  by_cases hs : ∀ e ∈ es.take MAX_ENTRIES, Short e
  · -- all names go into the table; then it must hold all entries
    have ht := tabled_take h hv hs
    have hlen : es.length ≤ MAX_ENTRIES := by
      have hv' : ∀ e ∈ es.take MAX_ENTRIES, e.Valid := fun e he => hv e (List.mem_of_mem_take he)
      obtain ⟨s, hrun, -, hall, hdone⟩ := hc _ (big_room hv (es.length + 1))
      obtain ⟨s', hrun', hi⟩ := session_run ht _ start_inv (big_room hv' (es.length + 1))
      obtain rfl : s = s' := Option.some.inj (hrun.symm.trans hrun')
      have hret := hdone (by rw [List.length_replicate]; omega)
      have hes := hi.emitted
      rw [hall hret, hi.done hret, List.take_length] at hes
      have hlen := congrArg List.length hes
      rw [List.length_take] at hlen
      omega
    rw [List.take_of_length_le hlen] at hs
    exact ⟨hlen, hs⟩
  · -- a name that does not ends the first call
    push Not at hs
    obtain ⟨s, hs', -⟩ := hc [bigRequest] (big_room hv 1)
    have hnone : call readdir start bigRequest = none := by
      unfold call sysGetdents64
      rw [collect_eq h hv, addAll_long (t := []) hs]
      rfl
    rw [List.foldlM_cons, hnone] at hs'
    cases hs'

/-- **`getdents64` lists the directory, exactly when** it has at most 32 entries and all names are below 47 bytes. -/
theorem getdents_iff (h : Directory readdir es) (hv : ∀ e ∈ es, e.Valid) : Complete readdir es ↔ Fits es :=
  ⟨fits_of_complete h hv, complete_of_fits h hv⟩

end Session

theorem getdents_sample : Complete (Tar.tarReaddir sampleTar 0) [⟨2, Proc.chars "b"⟩, ⟨1, Proc.chars "a"⟩] :=
  (getdents_iff sampleTar_directory (by unfold Dirent.Valid; decide)).2 (by unfold Fits Short; decide)

/-- the root of an archive with one file, its name 47 letters long -/
def longTar : Tar.TarState where
  base := fun _ => 0
  nodes
    | 1 => ⟨List.replicate 47 0x61, false, 512, 1, none, none⟩
    | _ => ⟨[], true, 0, 0, some 1, none⟩
  numNodes := 2
  capNodes := 24
  full := false

theorem longTar_directory : Directory (Tar.tarReaddir longTar 0) [⟨1, List.replicate 47 0x61⟩] := by
  have hdir : (longTar.nodes 0).isDir = true := rfl
  have hchain : Tar.Chain longTar.nodes (longTar.nodes 0).firstChild [1] := Tar.Chain.cons Tar.Chain.nil
  exact Directory.tar hdir hchain (by decide)

/-- **A name of 47 bytes.** Listing its directory does not return. -/
theorem long_name_lost : ¬ ∀ (readdir : ℕ → ℕ → Option (List U8)) (es : List Dirent), Directory readdir es →
    (∀ e ∈ es, e.Valid) → Complete readdir es := by
  intro hall
  have hv : ∀ e ∈ [(⟨1, List.replicate 47 0x61⟩ : Dirent)], e.Valid := by
    unfold Dirent.Valid
    decide
  have hfits := fits_of_complete longTar_directory hv (hall _ _ longTar_directory hv)
  exact absurd (hfits.2 _ (List.mem_singleton_self _)) (by unfold Short; decide)

end Retux.Getdents
