import TurboUtils.Lib.EditDistance
import TurboUtils.Utils.Utf8

/-! Approximate matching in levenshtein_automaton.c: the ends of nearby substrings are reported in
order, each with its distance and the start of the longest of them. No pointer is null, and allocation
succeeds. -/
namespace Levenshtein

open EditDistance

/-- `SIZE_MAX`. -/
def sizeMax : ℕ := 2 ^ 64 - 1

/-- `LEVENSHTEIN_INF`. -/
def levenshteinInf : ℕ := sizeMax / 4

/-- `lev_safe_add`. -/
def safeAdd (lhs rhs : ℕ) : ℕ :=
  if levenshteinInf < lhs ∨ levenshteinInf - lhs < rhs then levenshteinInf else lhs + rhs

inductive Status where
  | ok
  | einval
  deriving DecidableEq

/-- `lev_automaton_s` and `lev_utf8_automaton_s`, where they are initialized. -/
structure Automaton (α : Type) where
  pattern : List α
  maxDistance : ℕ

/-- `lev_automaton_init`. -/
def automatonInit (pattern : List UInt8) (maxDistance : ℕ) : Option (Automaton UInt8) :=
  if levenshteinInf < maxDistance then none
  else if pattern.length = 0 then none
  else some ⟨pattern, maxDistance⟩

/-- `lev_utf8_automaton_init`. -/
def utf8AutomatonInit (pattern : List UInt8) (maxDistance : ℕ) : Option (Automaton UInt32) :=
  if levenshteinInf < maxDistance then none
  else if !Utf8.valid pattern then none
  else if pattern.length = 0 then none
  else (Utf8.codePoints pattern).map fun cps => ⟨cps, maxDistance⟩

/-! ## Rows -/

def cell (same : Bool) (up left diag : ℕ × ℕ) : ℕ × ℕ :=
  let del := safeAdd up.1 1
  let ins := safeAdd left.1 1
  let sub := safeAdd diag.1 (if same then 0 else 1)
  let best := (del, up.2)
  let best := if ins < best.1 ∨ ins = best.1 ∧ left.2 < best.2 then (ins, left.2) else best
  if sub < best.1 ∨ sub = best.1 ∧ diag.2 < best.2 then (sub, diag.2) else best

section Rows

variable {α : Type} [DecidableEq α]

/-- The inner loop, for the rest of the pattern and of the row above; the two arrays of a row are one
list. -/
def nextCells (t : α) : List α → List (ℕ × ℕ) → ℕ × ℕ → List (ℕ × ℕ)
  | x :: xs, diag :: up :: ups, left =>
      let c := cell (x = t) up left diag
      c :: nextCells t xs (up :: ups) c
  | _, _, _ => []

def nextRow (pattern : List α) (t : α) (i : ℕ) (prev : List (ℕ × ℕ)) : List (ℕ × ℕ) :=
  (0, i + 1) :: nextCells t pattern prev (0, i + 1)

def firstRow (pattern : List α) : List (ℕ × ℕ) :=
  (List.range (pattern.length + 1)).map fun j => (j, 0)

/-- The outer loop, from the element `i` of the text on. The callback says whether to go on, and
changes the user data. -/
def matchLoop {σ : Type} (pattern : List α) (maxDistance : ℕ) (cb : ℕ → ℕ → ℕ → σ → Bool × σ) :
    ℕ → List α → List (ℕ × ℕ) → σ → σ
  | _, [], _, userData => userData
  | i, t :: rest, prev, userData =>
      let row := nextRow pattern t i prev
      let last := row.getD pattern.length (0, 0)
      if pattern.length ≤ i + 1 ∧ last.1 ≤ maxDistance ∧ last.2 ≤ i + 1 then
        let called := cb last.2 (i + 1) last.1 userData
        if !called.1 then called.2
        else matchLoop pattern maxDistance cb (i + 1) rest row called.2
      else matchLoop pattern maxDistance cb (i + 1) rest row userData

end Rows

/-- `lev_automaton_match`. -/
def automatonMatch {σ : Type} (lev : Automaton UInt8) (text : List UInt8)
    (cb : ℕ → ℕ → ℕ → σ → Bool × σ) (userData : σ) : Status × σ :=
  if lev.pattern.length = 0 then (.einval, userData)
  else (.ok, matchLoop lev.pattern lev.maxDistance cb 0 text (firstRow lev.pattern) userData)

/-- `lev_utf8_automaton_match`. -/
def utf8AutomatonMatch {σ : Type} (lev : Automaton UInt32) (text : List UInt8)
    (cb : ℕ → ℕ → ℕ → σ → Bool × σ) (userData : σ) : Status × σ :=
  if lev.pattern.length = 0 then (.einval, userData)
  else if !Utf8.valid text then (.einval, userData)
  else
    match Utf8.codePoints text with
    | none => (.einval, userData)
    | some cps =>
        (.ok, matchLoop lev.pattern lev.maxDistance cb 0 cps (firstRow lev.pattern) userData)

/-! ## Rows hold nearest suffixes -/

theorem safeAdd_of_le {d n : ℕ} (h : d + n ≤ levenshteinInf) : safeAdd d n = d + n := by
  unfold safeAdd
  exact if_neg (by omega)

theorem cell_eq {same : Bool} {up left diag : ℕ × ℕ} (hup : up.1 < levenshteinInf)
    (hleft : left.1 < levenshteinInf) (hdiag : diag.1 < levenshteinInf) :
    cell same up left diag = better (better (up.1 + 1, up.2) (left.1 + 1, left.2))
      (diag.1 + (if same then 0 else 1), diag.2) := by
  have hsub : diag.1 + (if same then 0 else 1) ≤ levenshteinInf := by
    split_ifs <;> omega
  unfold cell
  rw [safeAdd_of_le hup, safeAdd_of_le hleft, safeAdd_of_le hsub]
  rfl

section Cells

variable {α : Type} [DecidableEq α] {xs ys todo pattern rest : List α} {t : α} {cells : List (ℕ × ℕ)}
  {left : ℕ × ℕ}

/-- The cells of a row, from that of `xs` on: the nearest suffixes of `ys`. -/
def Cells (ys : List α) : List α → List α → List (ℕ × ℕ) → Prop
  | xs, [], [c] => Nearest xs ys c.1 c.2
  | xs, x :: todo, c :: cells => Nearest xs ys c.1 c.2 ∧ Cells ys (xs ++ [x]) todo cells
  | _, _, _ => False

theorem Cells.exists_cons (h : Cells ys xs todo cells) :
    ∃ c more, cells = c :: more ∧ Nearest xs ys c.1 c.2 := by
  rcases todo with _ | ⟨x, todo⟩ <;> rcases cells with _ | ⟨c, _ | ⟨d, more⟩⟩
  · exact h.elim
  · exact ⟨c, [], rfl, h⟩
  · exact h.elim
  · exact h.elim
  · exact ⟨c, [], rfl, h.1⟩
  · exact ⟨c, d :: more, rfl, h.1⟩

/-- The next row. -/
theorem Cells.next (h : Cells ys xs todo cells) (hsize : (xs ++ todo).length < levenshteinInf)
    (hleft : Nearest xs (ys ++ [t]) left.1 left.2) :
    Cells (ys ++ [t]) xs todo (left :: nextCells t todo cells left) := by
  induction todo generalizing xs cells left with
  | nil =>
    rw [nextCells]
    · exact hleft
    · exact nofun
  | cons x todo ih =>
    obtain ⟨diag, more, rfl, hdiag⟩ := h.exists_cons
    obtain ⟨up, ups, rfl, hup⟩ := h.2.exists_cons
    rw [List.length_append, List.length_cons] at hsize
    have hxs := hup.le_length
    rw [List.length_append, List.length_singleton] at hxs
    have hbest : cell (decide (x = t)) up left diag =
        better (better (up.1 + 1, up.2) (left.1 + 1, left.2))
          (diag.1 + (if x = t then 0 else 1), diag.2) := by
      rw [cell_eq (by omega) (by have := hleft.le_length; omega) (by have := hdiag.le_length; omega)]
      simp only [decide_eq_true_eq]
    refine ⟨hleft, ih h.2 ?_ (hup.snoc hleft hdiag hbest)⟩
    rw [List.length_append, List.length_append, List.length_singleton]
    omega

theorem Cells.last (h : Cells ys xs todo cells) :
    Nearest (xs ++ todo) ys (cells.getD todo.length (0, 0)).1 (cells.getD todo.length (0, 0)).2 := by
  induction todo generalizing xs cells with
  | nil =>
    obtain ⟨c, more, rfl, hc⟩ := h.exists_cons
    rw [List.append_nil]
    exact hc
  | cons x todo ih =>
    obtain ⟨c, more, rfl, -⟩ := h.exists_cons
    have hlast := ih h.2
    rw [List.append_assoc] at hlast
    exact hlast

theorem cells_first (xs todo : List α) :
    Cells [] xs todo ((List.range' xs.length (todo.length + 1)).map fun j => (j, 0)) := by
  induction todo generalizing xs with
  | nil => exact nearest_nil_right xs
  | cons x todo ih =>
    have hmore := ih (xs ++ [x])
    rw [List.length_append, List.length_singleton] at hmore
    rw [List.length_cons, List.range'_succ, List.map_cons]
    exact ⟨nearest_nil_right xs, hmore⟩

theorem cells_firstRow (pattern : List α) : Cells [] [] pattern (firstRow pattern) := by
  rw [firstRow, List.range_eq_range']
  exact cells_first [] pattern

theorem Cells.nextRow (h : Cells ys [] pattern cells) (hsize : pattern.length < levenshteinInf) :
    Cells (ys ++ [t]) [] pattern (nextRow pattern t ys.length cells) := by
  refine h.next hsize ?_
  have hnearest := nearest_nil_left (ys ++ [t])
  rwa [List.length_append] at hnearest

end Cells

/-! ## Reports -/

/-- What is reported where the callback goes on: start, end and distance, for the ends from `first`
on. -/
structure Reports {α : Type} [DecidableEq α] (pattern : List α) (maxDistance : ℕ) (text : List α)
    (first : ℕ) (reports : List (ℕ × ℕ × ℕ)) : Prop where
  mem : ∀ s e d, (s, e, d) ∈ reports ↔ first ≤ e ∧ pattern.length ≤ e ∧ e ≤ text.length ∧
    d ≤ maxDistance ∧ Nearest pattern (text.take e) d s
  sorted : reports.Pairwise fun r r' => r.2.1 < r'.2.1

section Loop

variable {α : Type} [DecidableEq α] {pattern text ys rest : List α} {maxDistance first : ℕ} {t : α}
  {prev : List (ℕ × ℕ)} {reports : List (ℕ × ℕ × ℕ)} {s d : ℕ}

theorem reports_end : Reports pattern maxDistance text (text.length + 1) [] := by
  refine ⟨fun s e d => ?_, List.Pairwise.nil⟩
  refine iff_of_false List.not_mem_nil ?_
  rintro ⟨hfirst, -, he, -⟩
  omega

/-- One more end in front. -/
theorem Reports.cons (h : Reports pattern maxDistance text (first + 1) reports)
    (hfirst : first ≤ text.length) (hnearest : Nearest pattern (text.take first) d s) :
    Reports pattern maxDistance text first
      (if pattern.length ≤ first ∧ d ≤ maxDistance then (s, first, d) :: reports else reports) := by
  have hmem : ∀ s' e d', (first ≤ e ∧ pattern.length ≤ e ∧ e ≤ text.length ∧ d' ≤ maxDistance ∧
      Nearest pattern (text.take e) d' s') ↔
        (e = first ∧ d' = d ∧ s' = s ∧ pattern.length ≤ first ∧ d ≤ maxDistance) ∨
          (s', e, d') ∈ reports := by
    intro s' e d'
    rw [h.mem]
    constructor
    · rintro ⟨hle, hpattern, htext, hd, hnear⟩
      rcases Nat.lt_or_eq_of_le hle with hlt | rfl
      · exact Or.inr ⟨hlt, hpattern, htext, hd, hnear⟩
      · obtain ⟨rfl, rfl⟩ := hnear.unique hnearest
        exact Or.inl ⟨rfl, rfl, rfl, hpattern, hd⟩
    · rintro (⟨rfl, rfl, rfl, hpattern, hd⟩ | ⟨hlt, hpattern, htext, hd, hnear⟩)
      · exact ⟨Nat.le_refl _, hpattern, hfirst, hd, hnearest⟩
      · exact ⟨Nat.le_of_succ_le hlt, hpattern, htext, hd, hnear⟩
  split_ifs with hreport
  · refine ⟨fun s' e d' => ?_, List.pairwise_cons.2 ⟨?_, h.sorted⟩⟩
    · rw [hmem, List.mem_cons, Prod.mk.injEq, Prod.mk.injEq]
      refine or_congr_left ?_
      constructor
      · rintro ⟨rfl, rfl, rfl⟩
        exact ⟨rfl, rfl, rfl, hreport⟩
      · rintro ⟨rfl, rfl, rfl, -⟩
        exact ⟨rfl, rfl, rfl⟩
    · rintro ⟨s', e, d'⟩ hlater
      exact ((h.mem s' e d').1 hlater).1
  · refine ⟨fun s' e d' => ?_, h.sorted⟩
    rw [hmem, or_iff_right]
    rintro ⟨-, -, -, hboth⟩
    exact hreport hboth

/-- The loop reports the ends that are left. -/
theorem matchLoop_reports (h : Cells ys [] pattern prev) (hsize : pattern.length < levenshteinInf) :
    ∃ reports, Reports pattern maxDistance (ys ++ rest) (ys.length + 1) reports ∧
      ∀ (σ : Type) (cb : ℕ → ℕ → ℕ → σ → Bool × σ) userData, (∀ s e d u, (cb s e d u).1 = true) →
        matchLoop pattern maxDistance cb ys.length rest prev userData =
          reports.foldl (fun u r => (cb r.1 r.2.1 r.2.2 u).2) userData := by
  induction rest generalizing ys prev with
  | nil =>
    rw [List.append_nil]
    exact ⟨[], reports_end, fun _ _ _ _ => rfl⟩
  | cons t rest ih =>
    have hrow : Cells (ys ++ [t]) [] pattern (nextRow pattern t ys.length prev) := h.nextRow hsize
    have hlast := hrow.last
    rw [List.nil_append] at hlast
    obtain ⟨later, hlater, hrun⟩ := ih hrow
    rw [List.length_append, List.length_singleton] at hrun hlater
    rw [List.append_assoc] at hlater
    have htake : (ys ++ t :: rest).take (ys.length + 1) = ys ++ [t] := by
      rw [List.take_length_add_append]
      rfl
    rw [← htake] at hlast
    refine ⟨_, hlater.cons ?_ hlast, fun σ cb userData hcb => ?_⟩
    · rw [List.length_append, List.length_append, List.length_singleton]
      omega
    · have hstart := hlast.le
      rw [List.length_take] at hstart
      rw [matchLoop]
      dsimp only
      rw [hrun σ cb _ hcb, hrun σ cb _ hcb, hcb]
      by_cases hreport : pattern.length ≤ ys.length + 1 ∧
          ((nextRow pattern t ys.length prev).getD pattern.length (0, 0)).1 ≤ maxDistance
      · rw [if_pos ⟨hreport.1, hreport.2, by omega⟩, if_pos hreport]
        rfl
      · rw [if_neg fun hall => hreport ⟨hall.1, hall.2.1⟩, if_neg hreport]

end Loop

/-- What the loop does depends on which elements are the same. -/
theorem matchLoop_map {α β σ : Type} [DecidableEq α] [DecidableEq β] {f : α → β} (hf : f.Injective)
    (pattern : List α) (maxDistance : ℕ) (cb : ℕ → ℕ → ℕ → σ → Bool × σ) (i : ℕ) (rest : List α)
    (prev : List (ℕ × ℕ)) (userData : σ) :
    matchLoop (pattern.map f) maxDistance cb i (rest.map f) prev userData =
      matchLoop pattern maxDistance cb i rest prev userData := by
  have hcells : ∀ t (xs : List α) cells left,
      nextCells (f t) (xs.map f) cells left = nextCells t xs cells left := by
    intro t xs
    induction xs with
    | nil => exact fun _ _ => rfl
    | cons x xs ih =>
      rintro (_ | ⟨diag, _ | ⟨up, ups⟩⟩) left
      · rfl
      · rfl
      · have hsame : decide (f x = f t) = decide (x = t) := decide_eq_decide.2 hf.eq_iff
        rw [List.map_cons, nextCells, nextCells, hsame, ih]
  induction rest generalizing i prev userData with
  | nil => rfl
  | cons t rest ih =>
    rw [List.map_cons, matchLoop, matchLoop, nextRow, nextRow, hcells, List.length_map]
    dsimp only
    rw [ih, ih]

/-! ## Both automata -/

theorem Reports.of_one {α : Type} [DecidableEq α] {pattern text : List α} {maxDistance : ℕ}
    {reports : List (ℕ × ℕ × ℕ)} (h : Reports pattern maxDistance text 1 reports)
    (hpattern : pattern.length ≠ 0) : Reports pattern maxDistance text 0 reports := by
  refine ⟨fun s e d => (h.mem s e d).trans ?_, h.sorted⟩
  rw [and_iff_right (Nat.zero_le e), and_iff_right_iff_imp]
  rintro ⟨hle, -⟩
  omega

theorem run_reports {α : Type} [DecidableEq α] {pattern : List α} (hpattern : pattern.length ≠ 0)
    (hrows : 8 * (pattern.length + 1) ≤ sizeMax) (maxDistance : ℕ) (text : List α) :
    ∃ reports, Reports pattern maxDistance text 0 reports ∧
      ∀ (σ : Type) (cb : ℕ → ℕ → ℕ → σ → Bool × σ) u, (∀ s e d u, (cb s e d u).1 = true) →
        matchLoop pattern maxDistance cb 0 text (firstRow pattern) u =
          reports.foldl (fun u r => (cb r.1 r.2.1 r.2.2 u).2) u := by
  have hsize : pattern.length < levenshteinInf := by
    unfold levenshteinInf
    unfold sizeMax at *
    omega
  obtain ⟨reports, hreports, hrun⟩ :=
    @matchLoop_reports α _ pattern [] text maxDistance _ (cells_firstRow pattern) hsize
  exact ⟨reports, hreports.of_one hpattern, hrun⟩

theorem automatonInit_eq_some {p : List UInt8} {k : ℕ} {lev : Automaton UInt8} :
    automatonInit p k = some lev ↔ k ≤ levenshteinInf ∧ p.length ≠ 0 ∧ lev = ⟨p, k⟩ := by
  unfold automatonInit
  rw [Option.ite_none_left_eq_some, Option.ite_none_left_eq_some, Nat.not_lt, Option.some.injEq,
    eq_comm (a := lev)]

theorem utf8AutomatonInit_eq_some {p : List UInt8} {k : ℕ} {lev : Automaton UInt32} :
    utf8AutomatonInit p k = some lev ↔ k ≤ levenshteinInf ∧ p.length ≠ 0 ∧
      ∃ cps, Utf8.codePoints p = some cps ∧ lev = ⟨cps, k⟩ := by
  unfold utf8AutomatonInit
  rw [Option.ite_none_left_eq_some, Option.ite_none_left_eq_some, Option.ite_none_left_eq_some,
    Nat.not_lt, Bool.not_eq_true', Bool.not_eq_false, Utf8.valid_iff, Option.map_eq_some_iff]
  refine and_congr_right fun _ => ?_
  constructor
  · rintro ⟨-, hlength, cps, hcps, rfl⟩
    exact ⟨hlength, cps, hcps, rfl⟩
  · rintro ⟨hlength, cps, hcps, rfl⟩
    exact ⟨⟨cps, hcps⟩, hlength, cps, hcps, rfl⟩

theorem codePoints_ne_nil {p : List UInt8} {cps : List UInt32} (hp : p.length ≠ 0)
    (h : Utf8.codePoints p = some cps) : cps.length ≠ 0 := by
  intro hzero
  rw [List.eq_nil_of_length_eq_zero hzero, Utf8.codePoints_eq_some] at h
  cases h
  exact hp rfl

/-- Each automaton reports exactly the ends of the substrings near its pattern, in order, with the least
distance and the least start of it; and on ASCII the two do the same. -/
theorem match_exact :
    (∀ (p text : List UInt8) k lev, automatonInit p k = some lev → 8 * (p.length + 1) ≤ sizeMax →
      ∃ reports, Reports p k text 0 reports ∧
        ∀ (σ : Type) (cb : ℕ → ℕ → ℕ → σ → Bool × σ) u, (∀ s e d u, (cb s e d u).1 = true) →
          automatonMatch lev text cb u =
            (.ok, reports.foldl (fun u r => (cb r.1 r.2.1 r.2.2 u).2) u)) ∧
    (∀ (p text : List UInt8) k lev, utf8AutomatonInit p k = some lev → Utf8.valid text = true →
      8 * (lev.pattern.length + 1) ≤ sizeMax →
      ∃ cps textCps reports, Utf8.codePoints p = some cps ∧ Utf8.codePoints text = some textCps ∧
        Reports cps k textCps 0 reports ∧
        ∀ (σ : Type) (cb : ℕ → ℕ → ℕ → σ → Bool × σ) u, (∀ s e d u, (cb s e d u).1 = true) →
          utf8AutomatonMatch lev text cb u =
            (.ok, reports.foldl (fun u r => (cb r.1 r.2.1 r.2.2 u).2) u)) ∧
    ∀ (p text : List UInt8) k lev, (∀ b ∈ p, b < 0x80) → (∀ b ∈ text, b < 0x80) →
      automatonInit p k = some lev → ∃ lev', utf8AutomatonInit p k = some lev' ∧
        ∀ (σ : Type) (cb : ℕ → ℕ → ℕ → σ → Bool × σ) u,
          utf8AutomatonMatch lev' text cb u = automatonMatch lev text cb u := by
  refine ⟨fun p text k lev hinit hrows => ?_, fun p text k lev hinit hvalid hrows => ?_,
    fun p text k lev hp htext hinit => ?_⟩
  · obtain ⟨-, hlength, rfl⟩ := automatonInit_eq_some.1 hinit
    obtain ⟨reports, hreports, hrun⟩ := run_reports hlength hrows k text
    refine ⟨reports, hreports, fun σ cb u hcb => ?_⟩
    rw [automatonMatch, if_neg hlength, hrun σ cb u hcb]
  · obtain ⟨-, hlength, cps, hcps, rfl⟩ := utf8AutomatonInit_eq_some.1 hinit
    obtain ⟨textCps, htext⟩ := Utf8.valid_iff.1 hvalid
    have hpattern := codePoints_ne_nil hlength hcps
    obtain ⟨reports, hreports, hrun⟩ := run_reports hpattern hrows k textCps
    refine ⟨cps, textCps, reports, hcps, htext, hreports, fun σ cb u hcb => ?_⟩
    rw [utf8AutomatonMatch, if_neg hpattern, hvalid, if_neg (by decide), htext]
    dsimp only
    rw [hrun σ cb u hcb]
  · obtain ⟨hk, hlength, rfl⟩ := automatonInit_eq_some.1 hinit
    have hpattern := Utf8.codePoints_ascii hp
    have hcps := Utf8.codePoints_ascii htext
    have hinjective : Function.Injective UInt8.toUInt32 := fun a b => UInt8.toUInt32_inj.1
    refine ⟨_, utf8AutomatonInit_eq_some.2 ⟨hk, hlength, _, hpattern, rfl⟩, fun σ cb u => ?_⟩
    have hnonempty := codePoints_ne_nil hlength hpattern
    rw [utf8AutomatonMatch, automatonMatch, if_neg hnonempty, if_neg hlength,
      Utf8.valid_iff.2 ⟨_, hcps⟩, if_neg (by decide), hcps]
    dsimp only
    have hrow : firstRow (p.map UInt8.toUInt32) = firstRow p := by
      rw [firstRow, firstRow, List.length_map]
    rw [matchLoop_map hinjective, hrow]

/-- The pattern "abc", at a distance of at most one, in "abxd". -/
theorem match_exact_abxd :
    Reports [(97 : UInt8), 98, 99] 1 [97, 98, 120, 100] 0 [(0, 3, 1)] := by
  obtain ⟨reports, hreports, hrun⟩ := match_exact.1 [97, 98, 99] [97, 98, 120, 100] 1
    ⟨[97, 98, 99], 1⟩ rfl (by decide)
  -- A callback that keeps what it is called with.
  have hlog := hrun (List (ℕ × ℕ × ℕ)) (fun s e d log => (true, log ++ [(s, e, d)])) []
    fun _ _ _ _ => rfl
  have hkeep : ∀ (log reports : List (ℕ × ℕ × ℕ)),
      reports.foldl (fun u r => u ++ [(r.1, r.2.1, r.2.2)]) log = log ++ reports := by
    intro log reports
    induction reports generalizing log with
    | nil => exact (List.append_nil log).symm
    | cons r reports ih => rw [List.foldl_cons, ih, List.append_assoc, List.singleton_append]
  have hreported : reports = [(0, 3, 1)] := by
    rw [hkeep, List.nil_append] at hlog
    exact (Prod.mk.inj hlog).2.symm
  exact hreported ▸ hreports

/-! ## Callbacks that stop -/

section Stops

variable {α σ : Type} [DecidableEq α] {cb : ℕ → ℕ → ℕ → σ → Bool × σ}

def untilStop (cb : ℕ → ℕ → ℕ → σ → Bool × σ) (s e d : ℕ) (u : Bool × σ) : Bool × Bool × σ :=
  (true, if u.1 then cb s e d u.2 else u)

theorem matchLoop_untilStop (pattern : List α) (k i : ℕ) (rest : List α) (prev : List (ℕ × ℕ))
    (u : Bool × σ) : (matchLoop pattern k (untilStop cb) i rest prev u).2 =
      if u.1 then matchLoop pattern k cb i rest prev u.2 else u.2 := by
  induction rest generalizing i prev u with
  | nil => simp [matchLoop]
  | cons t rest ih =>
    simp only [matchLoop, untilStop, Bool.not_true, Bool.false_eq_true, if_false]
    grind

/-- Whatever the callback does, it is called for the ends in order up to the first that it stops at. -/
theorem match_stops {p text : List UInt8} {k : ℕ} {lev : Automaton UInt8}
    (hinit : automatonInit p k = some lev) (hrows : 8 * (p.length + 1) ≤ sizeMax) :
    ∃ reports, Reports p k text 0 reports ∧ ∀ (σ : Type) (cb : ℕ → ℕ → ℕ → σ → Bool × σ) u,
      automatonMatch lev text cb u = (.ok, (reports.foldl (fun u r => if u.1 then
        cb r.1 r.2.1 r.2.2 u.2 else u) (true, u)).2) := by
  obtain ⟨-, hlength, rfl⟩ := automatonInit_eq_some.1 hinit
  obtain ⟨reports, hreports, hrun⟩ := run_reports hlength hrows k text
  refine ⟨reports, hreports, fun σ cb u => ?_⟩
  have hflag := hrun _ (untilStop cb) (true, u) fun _ _ _ _ => rfl
  have hloop := @matchLoop_untilStop _ _ _ cb p k 0 text (firstRow p) (true, u)
  rw [hflag, if_pos rfl] at hloop
  rw [automatonMatch, if_neg hlength, ← hloop]
  rfl

end Stops

theorem match_stops_abxd : ∃ reports, Reports [(97 : UInt8), 98, 99] 1 [97, 98, 120, 100] 0 reports :=
  (@match_stops _ _ 1 ⟨[97, 98, 99], 1⟩ rfl (by decide)).imp fun _ => And.left

end Levenshtein
