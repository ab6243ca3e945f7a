import TurboUtils.Dsv.IndexPlan
import Mathlib.Data.Char
import Mathlib.Data.List.Lex

/-! The ranges of a cursor: merged, they do not meet, and the rows that are iterated are the entries
in any of the ranges, in the order of the index. -/
namespace Dsv

/-! ## Texts -/

theorem cmpBytes_lt_iff (a b : List Char) : cmpBytes a b = .lt ↔ a < b := by
  induction a, b using cmpBytes.induct with
  | case1 => simp [cmpBytes]
  | case2 => simp [cmpBytes]
  | case3 => simp [cmpBytes]
  | case4 a as b bs ih =>
    have hchar : a < b ↔ a.toNat < b.toNat := Iff.rfl
    have heq : a = b ↔ a.toNat = b.toNat := Char.toNat_inj.symm
    rw [cmpBytes, Ordering.then_eq_lt, compare_lt_iff_lt, compare_eq_iff_eq, ih,
      List.cons_lt_cons_iff, hchar, heq]

theorem cmpBytes_eq_iff (a b : List Char) : cmpBytes a b = .eq ↔ a = b := by
  induction a, b using cmpBytes.induct with
  | case1 => simp [cmpBytes]
  | case2 => simp [cmpBytes]
  | case3 => simp [cmpBytes]
  | case4 a as b bs ih =>
    rw [cmpBytes, Ordering.then_eq_eq, compare_eq_iff_eq, ih, List.cons.injEq, Char.toNat_inj]

/-! ## Bounds -/

/-- The numbers from a bound on. -/
def above : Option Bound → ℚ → Prop
  | none, _ => True
  | some bound, x => bound.number < x ∨ (bound.inclusive = true ∧ bound.number = x)

/-- The numbers up to a bound. -/
def below : Option Bound → ℚ → Prop
  | none, _ => True
  | some bound, x => x < bound.number ∨ (bound.inclusive = true ∧ x = bound.number)

/-! ## Merging -/

namespace RangeCursor

def Mem (range : RangeCursor) (place : List Char × ℚ) : Prop :=
  place.1 = range.text ∧ above range.lower place.2 ∧ below range.upper place.2

def StartsBy (a b : RangeCursor) : Prop :=
  a.text < b.text ∨ (a.text = b.text ∧ ∀ x, above b.lower x → above a.lower x)

def EndsBefore (a b : RangeCursor) : Prop :=
  a.text < b.text ∨
    (a.text = b.text ∧ ∀ x y, below a.upper x → above b.lower y → x < y)

theorem StartsBy.trans {a b c : RangeCursor} (hab : a.StartsBy b) (hbc : b.StartsBy c) :
    a.StartsBy c := by
  rcases hab with hab | ⟨hab, hlower⟩
  · rcases hbc with hbc | ⟨hbc, -⟩
    · exact .inl (hab.trans hbc)
    · exact .inl (hbc ▸ hab)
  · rcases hbc with hbc | ⟨hbc, hlower'⟩
    · exact .inl (hab ▸ hbc)
    · exact .inr ⟨hab.trans hbc, fun x hx => hlower x (hlower' x hx)⟩

theorem EndsBefore.trans {a b c : RangeCursor} (hab : a.EndsBefore b) (hbc : b.StartsBy c) :
    a.EndsBefore c := by
  rcases hab with hab | ⟨hab, hends⟩
  · rcases hbc with hbc | ⟨hbc, -⟩
    · exact .inl (hab.trans hbc)
    · exact .inl (hbc ▸ hab)
  · rcases hbc with hbc | ⟨hbc, hlower⟩
    · exact .inl (hab ▸ hbc)
    · exact .inr ⟨hab.trans hbc, fun x y hx hy => hends x y hx (hlower y hy)⟩

@[simp] theorem mergeRange_text (a b : RangeCursor) : (a.mergeRange b).text = a.text := by
  unfold mergeRange
  split
  · rfl
  · rfl
  · split_ifs <;> rfl

@[simp] theorem mergeRange_lower (a b : RangeCursor) : (a.mergeRange b).lower = a.lower := by
  unfold mergeRange
  split
  · rfl
  · rfl
  · split_ifs <;> rfl

@[simp] theorem mergeRange_finished (a b : RangeCursor) :
    (a.mergeRange b).finished = a.finished := by
  unfold mergeRange
  split
  · rfl
  · rfl
  · split_ifs <;> rfl

theorem startsBy_of_compare {a b : RangeCursor} (h : (a.compare b).isLE) : a.StartsBy b := by
  unfold compare at h
  rw [Ordering.isLE_then_iff_or] at h
  rcases h with h | ⟨htext, h⟩
  · exact .inl ((cmpBytes_lt_iff _ _).1 h)
  · refine .inr ⟨(cmpBytes_eq_iff _ _).1 htext, fun x hx => ?_⟩
    obtain ⟨_, alower, _, _, _⟩ := a
    obtain ⟨_, blower, _, _, _⟩ := b
    dsimp only at h hx ⊢
    match alower, blower with
    | none, _ => trivial
    | some a, some b =>
      rw [Ordering.isLE_then_iff_or, compare_lt_iff_lt, compare_eq_iff_eq] at h
      rcases h with h | ⟨hnumber, h⟩
      · rcases hx with hx | ⟨-, hx⟩
        · exact .inl (h.trans hx)
        · exact .inl (hx ▸ h)
      · rcases hx with hx | ⟨hinclusive, hx⟩
        · exact .inl (hnumber ▸ hx)
        · refine .inr ⟨?_, hnumber.trans hx⟩
          rw [hinclusive] at h
          cases ha : a.inclusive with
          | true => rfl
          | false => simp [ha] at h

theorem endsBefore_of_not_overlaps {a b : RangeCursor} (hle : a.StartsBy b)
    (h : a.overlaps b = false) : a.EndsBefore b := by
  rcases hle with hle | ⟨htext, -⟩
  · exact .inl hle
  · refine .inr ⟨htext, fun x y hx hy => ?_⟩
    unfold overlaps at h
    rw [if_neg (not_not.2 htext)] at h
    obtain ⟨_, _, aupper, _, _⟩ := a
    obtain ⟨_, blower, _, _, _⟩ := b
    dsimp only at h hx hy
    match aupper, blower with
    | some upper, some lower =>
      simp only [Bool.or_eq_false_iff, decide_eq_false_iff_not, Bool.and_eq_false_imp,
        decide_eq_true_eq, not_lt] at h
      obtain ⟨hle, hinclusive⟩ := h
      rcases hx with hx | ⟨hupper, rfl⟩
      · rcases hy with hy | ⟨-, rfl⟩
        · exact (hx.trans_le hle).trans hy
        · exact hx.trans_le hle
      · rcases hy with hy | ⟨hlower, rfl⟩
        · exact hle.trans_lt hy
        · refine lt_of_le_of_ne hle fun heq => ?_
          have hboth := (hinclusive heq.symm).1
          rw [hlower] at hboth
          cases hboth

/-- Where two ranges of one text overlap, no number lies between them. -/
theorem reaches_of_overlaps {a b : RangeCursor} (h : a.overlaps b = true) {x : ℚ}
    (hx : ¬below a.upper x) : above b.lower x := by
  unfold overlaps at h
  split_ifs at h
  obtain ⟨_, _, aupper, _, _⟩ := a
  obtain ⟨_, blower, _, _, _⟩ := b
  dsimp only at h hx ⊢
  match aupper, blower with
  | none, _ => exact absurd trivial hx
  | some _, none => trivial
  | some upper, some lower =>
    simp only [below, not_or, not_lt, not_and] at hx
    obtain ⟨hle, hinclusive⟩ := hx
    simp only [Bool.or_eq_true, decide_eq_true_eq, Bool.and_eq_true] at h
    rcases h with hlt | ⟨heq, h⟩
    · exact .inl (hlt.trans_le hle)
    · rcases hle.lt_or_eq with hlt | hxeq
      · exact .inl (heq ▸ hlt)
      · rcases h with hlower | hupper
        · exact .inr ⟨hlower, heq.trans hxeq⟩
        · exact absurd hxeq.symm (hinclusive hupper)

theorem below_mergeRange {a b : RangeCursor} (x : ℚ) :
    below (a.mergeRange b).upper x ↔ below a.upper x ∨ below b.upper x := by
  unfold mergeRange
  obtain ⟨_, _, aupper, _, _⟩ := a
  obtain ⟨_, _, bupper, _, _⟩ := b
  match aupper, bupper with
  | none, _ => simp [below]
  | some _, none => simp [below]
  | some a, some b =>
    dsimp only
    rcases lt_trichotomy b.number a.number with h | h | h
    · rw [if_pos h]
      refine ⟨.inl, fun hx => hx.elim id fun hx => .inl ?_⟩
      rcases hx with hx | ⟨-, rfl⟩
      · exact hx.trans h
      · exact h
    · rw [if_neg h.not_lt, if_neg h.not_gt]
      simp only [below, h, Bool.or_eq_true]
      tauto
    · rw [if_neg h.not_gt, if_pos h]
      refine ⟨.inr, fun hx => hx.elim (fun hx => .inl ?_) id⟩
      rcases hx with hx | ⟨-, rfl⟩
      · exact hx.trans h
      · exact h

theorem mem_mergeRange {a b : RangeCursor} (hle : a.StartsBy b) (h : a.overlaps b = true)
    (place : List Char × ℚ) : (a.mergeRange b).Mem place ↔ a.Mem place ∨ b.Mem place := by
  have htext : a.text = b.text := by
    by_contra hne
    unfold overlaps at h
    rw [if_pos hne] at h
    cases h
  have hlower := (hle.resolve_left htext.not_lt).2
  unfold Mem
  rw [mergeRange_text, mergeRange_lower, below_mergeRange, ← htext]
  constructor
  · rintro ⟨heq, habove, hbelow | hbelow⟩
    · exact .inl ⟨heq, habove, hbelow⟩
    · by_cases ha : below a.upper place.2
      · exact .inl ⟨heq, habove, ha⟩
      · exact .inr ⟨heq, reaches_of_overlaps h ha, hbelow⟩
  · rintro (⟨heq, habove, hbelow⟩ | ⟨heq, habove, hbelow⟩)
    · exact ⟨heq, habove, .inl hbelow⟩
    · exact ⟨heq, hlower _ habove, .inr hbelow⟩

/-- The ranges of a cursor, sorted as `dsv_index_range_compare` says. -/
def pieces : Coalesce.Pieces RangeCursor (List Char × ℚ) where
  Le := StartsBy
  overlaps := overlaps
  join := mergeRange
  Mem := Mem
  Before := EndsBefore
  le_refl _ := .inr ⟨rfl, fun _ => id⟩
  le_trans := .trans
  join_le {a b c} h := by
    unfold StartsBy
    rw [mergeRange_text, mergeRange_lower]
    exact h
  le_join {a b c} h := by
    unfold StartsBy
    rw [mergeRange_text, mergeRange_lower]
    exact h
  mem_join := mem_mergeRange
  before_of_le := endsBefore_of_not_overlaps
  before_trans := .trans

/-! ## Searching -/

def covers (range : RangeCursor) (entry : Entry) : Bool :=
  cmpBytes entry.textKey range.text = .eq && !range.isBelow entry && !range.isAbove entry

theorem not_isBelow {range : RangeCursor} {entry : Entry} :
    range.isBelow entry = false ↔ above range.lower entry.numberKey := by
  unfold isBelow above
  cases range.lower with
  | none => simp
  | some bound =>
    simp only [Bool.or_eq_false_iff, decide_eq_false_iff_not, not_lt, Bool.and_eq_false_imp,
      decide_eq_true_eq, Bool.not_eq_false', le_iff_lt_or_eq]
    constructor
    · rintro ⟨hlt | heq, hinclusive⟩
      · exact .inl hlt
      · exact .inr ⟨hinclusive heq.symm, heq⟩
    · rintro (hlt | ⟨hinclusive, heq⟩)
      · exact ⟨.inl hlt, fun heq => absurd heq hlt.ne'⟩
      · exact ⟨.inr heq, fun _ => hinclusive⟩

theorem not_isAbove {range : RangeCursor} {entry : Entry} :
    range.isAbove entry = false ↔ below range.upper entry.numberKey := by
  unfold isAbove below
  cases range.upper with
  | none => simp
  | some bound =>
    simp only [gt_iff_lt, Bool.or_eq_false_iff, decide_eq_false_iff_not, not_lt,
      Bool.and_eq_false_imp, decide_eq_true_eq, Bool.not_eq_false', le_iff_lt_or_eq]
    constructor
    · rintro ⟨hlt | heq, hinclusive⟩
      · exact .inl hlt
      · exact .inr ⟨hinclusive heq, heq⟩
    · rintro (hlt | ⟨hinclusive, heq⟩)
      · exact ⟨.inl hlt, fun heq => absurd heq hlt.ne⟩
      · exact ⟨.inr heq, fun _ => hinclusive⟩

theorem covers_iff {range : RangeCursor} {entry : Entry} :
    range.covers entry = true ↔ range.Mem (entry.textKey, entry.numberKey) := by
  unfold covers Mem
  rw [Bool.and_eq_true, Bool.and_eq_true, decide_eq_true_eq, Bool.not_eq_true', Bool.not_eq_true',
    not_isBelow, not_isAbove, cmpBytes_eq_iff, and_assoc]

theorem EndsBefore.lt {a b : RangeCursor} (h : a.EndsBefore b) {x y : Entry}
    (hx : a.covers x = true) (hy : b.covers y = true) :
    x.textKey < y.textKey ∨ (x.textKey = y.textKey ∧ x.numberKey < y.numberKey) := by
  obtain ⟨hxtext, -, hbelow⟩ := covers_iff.1 hx
  obtain ⟨hytext, habove, -⟩ := covers_iff.1 hy
  dsimp only at hxtext hytext hbelow habove
  rw [hxtext, hytext]
  exact h.imp_right fun h => ⟨h.1, h.2 _ _ hbelow habove⟩

theorem isBefore_iff {range : RangeCursor} {entry : Entry} :
    range.isBefore entry = true ↔ entry.textKey < range.text ∨
      (entry.textKey = range.text ∧ ¬above range.lower entry.numberKey) := by
  unfold isBefore
  rw [← cmpBytes_lt_iff, ← cmpBytes_eq_iff, ← not_isBelow]
  cases cmpBytes entry.textKey range.text <;> simp

end RangeCursor

def Entry.UpTo (a b : Entry) : Prop :=
  a.textKey < b.textKey ∨ (a.textKey = b.textKey ∧ a.numberKey ≤ b.numberKey)

instance : Std.Refl Entry.UpTo := ⟨fun _ => .inr ⟨rfl, le_rfl⟩⟩

theorem upTo_of_entryCompare {a b : Entry} (h : (entryCompare a b).isLE) : a.UpTo b := by
  unfold entryCompare at h
  rw [Ordering.isLE_then_iff_or, Ordering.isLE_then_iff_or, compare_lt_iff_lt,
    compare_eq_iff_eq] at h
  rcases h with h | ⟨htext, h | ⟨hnumber, -⟩⟩
  · exact .inl ((cmpBytes_lt_iff _ _).1 h)
  · exact .inr ⟨(cmpBytes_eq_iff _ _).1 htext, h.le⟩
  · exact .inr ⟨(cmpBytes_eq_iff _ _).1 htext, hnumber.le⟩

theorem above_mono {bound : Option Bound} {x y : ℚ} (hxy : x ≤ y) (h : above bound x) :
    above bound y := by
  match bound with
  | none => trivial
  | some bound =>
    rcases h with h | ⟨hinclusive, h⟩
    · exact .inl (h.trans_le hxy)
    · exact (h ▸ hxy).lt_or_eq.imp id fun heq => ⟨hinclusive, heq⟩

theorem below_mono {bound : Option Bound} {x y : ℚ} (hxy : x ≤ y) (h : below bound y) :
    below bound x := by
  match bound with
  | none => trivial
  | some bound =>
    rcases h with h | ⟨hinclusive, h⟩
    · exact .inl (hxy.trans_lt h)
    · exact (h ▸ hxy).lt_or_eq.imp id fun heq => ⟨hinclusive, heq⟩

namespace RangeCursor

variable (range : RangeCursor) {entries : List Entry}

theorem pairwise_isBefore (h : entries.Pairwise Entry.UpTo) :
    entries.Pairwise fun a b => range.isBefore b = true → range.isBefore a = true := by
  refine h.imp fun {a b} hab hb => ?_
  rw [isBefore_iff] at hb ⊢
  rcases hab with hab | ⟨htext, hnumber⟩
  · exact .inl (hb.elim hab.trans fun hb => hb.1 ▸ hab)
  · rw [htext]
    exact hb.imp_right fun hb => ⟨hb.1, fun ha => hb.2 (above_mono hnumber ha)⟩

theorem setPosition_eq (h : entries.Pairwise Entry.UpTo) :
    range.setPosition entries = { range with position := entries.countP range.isBefore } := by
  have hposition : BinarySearch.lowerBound (fun i => entries[i]?.any range.isBefore)
      entries.length 0 entries.length = entries.countP range.isBefore := by
    refine BinarySearch.lowerBound_eq (Nat.sub_le _ _) (Nat.zero_le _) List.countP_le_length ?_
    intro i hi
    rw [List.getElem?_eq_getElem hi, Option.any_some]
    exact Coalesce.getElem_lt_countP (range.pairwise_isBefore h) hi
  unfold setPosition
  dsimp only
  rw [hposition]

/-- A range that has entries left: none of them is before the range. -/
structure Ready (entries : List Entry) : Prop where
  unfinished : range.finished = false
  notBefore : ∀ entry ∈ entries.drop range.position, range.isBefore entry = false

def remaining (entries : List Entry) : List Entry :=
  (entries.drop range.position).takeWhile range.covers

variable {range}

theorem remaining_setPosition (h : entries.Pairwise Entry.UpTo) :
    (range.setPosition entries).remaining entries = entries.filter range.covers := by
  rw [setPosition_eq range h]
  unfold remaining
  dsimp only
  rw [Coalesce.drop_countP (range.pairwise_isBefore h)]
  -- of the entries that are not before the range, those in the range come first
  have hfirst : (entries.filter fun entry => !range.isBefore entry).Pairwise
      fun a b => range.covers b = true → range.covers a = true := by
    refine (h.filter _).imp_of_mem fun {a b} ha _ hab hb => ?_
    have ha := (List.mem_filter.1 ha).2
    rw [Bool.not_eq_true', ← Bool.not_eq_true, isBefore_iff, not_or, not_and, not_not] at ha
    rw [covers_iff] at hb ⊢
    obtain ⟨hbtext, -, hbelow⟩ := hb
    dsimp only at hbtext hbelow
    rcases hab with hab | ⟨htext, hnumber⟩
    · exact absurd (hbtext ▸ hab) ha.1
    · exact ⟨htext.trans hbtext, ha.2 (htext.trans hbtext), below_mono hnumber hbelow⟩
  have hcovers : (range.setPosition entries).covers = range.covers := rfl
  refine (Coalesce.filter_eq_takeWhile hfirst).symm.trans ?_
  rw [List.filter_filter]
  refine List.filter_congr fun entry _ => ?_
  cases hcover : range.covers entry with
  | false => rfl
  | true =>
    obtain ⟨htext, habove, -⟩ := covers_iff.1 hcover
    have hnot : range.isBefore entry ≠ true := fun hbefore => (isBefore_iff.1 hbefore).elim
      (fun hlt => hlt.ne htext) fun hbelow => hbelow.2 habove
    simp [hnot]

theorem ready_setPosition (h : entries.Pairwise Entry.UpTo) (hfinished : range.finished = false) :
    (range.setPosition entries).Ready entries := by
  rw [setPosition_eq range h]
  refine ⟨hfinished, fun entry hentry => ?_⟩
  dsimp only at hentry
  rw [Coalesce.drop_countP (range.pairwise_isBefore h)] at hentry
  have hnot := (List.mem_filter.1 hentry).2
  rw [Bool.not_eq_true'] at hnot
  exact hnot

/-- What the inner loop of `dsv_index_cursor_next` looks at first. -/
theorem scan_cons (hready : range.Ready entries) {entry : Entry} {rest : List Entry}
    (hentries : entries.drop range.position = entry :: rest) :
    range.scan (entry :: rest) =
      if range.covers entry then ({ range with position := range.position + 1 }, some entry)
      else ({ range with position := range.position + 1, finished := true }, none) := by
  have hbefore := hready.notBefore entry (hentries ▸ List.mem_cons_self)
  unfold isBefore at hbefore
  unfold scan covers
  dsimp only
  cases htext : cmpBytes entry.textKey range.text with
  | lt => rfl
  | gt => rfl
  | eq =>
    rw [htext] at hbefore
    have hbelow : range.isBelow entry = false := hbefore
    have hbelow' : ({ range with position := range.position + 1 } : RangeCursor).isBelow entry =
        range.isBelow entry := rfl
    have habove' : ({ range with position := range.position + 1 } : RangeCursor).isAbove entry =
        range.isAbove entry := rfl
    rw [if_neg (not_not.2 rfl), hbelow', habove', hbelow]
    cases range.isAbove entry <;> rfl

theorem scan_of_nil (hready : range.Ready entries) (h : range.remaining entries = []) :
    (range.scan (entries.drop range.position)).2 = none := by
  unfold remaining at h
  cases hentries : entries.drop range.position with
  | nil => rfl
  | cons entry rest =>
    rw [hentries, List.takeWhile_cons] at h
    rw [scan_cons hready hentries]
    split_ifs at h ⊢
    rfl

/-- The inner loop of `dsv_index_cursor_next` returns the next entry of the range. -/
theorem scan_of_cons (hready : range.Ready entries) {entry : Entry} {later : List Entry}
    (h : range.remaining entries = entry :: later) :
    range.scan (entries.drop range.position) =
        ({ range with position := range.position + 1 }, some entry) ∧
      { range with position := range.position + 1 }.Ready entries ∧
        { range with position := range.position + 1 }.remaining entries = later := by
  have hdrop : entries.drop (range.position + 1) = (entries.drop range.position).tail :=
    List.tail_drop.symm
  unfold remaining at h
  cases hentries : entries.drop range.position with
  | nil =>
    rw [hentries] at h
    cases h
  | cons first rest =>
    rw [hentries, List.takeWhile_cons] at h
    rw [hentries] at hdrop
    split_ifs at h with hcovers
    obtain ⟨rfl, rfl⟩ := List.cons.inj h
    refine ⟨?_, ⟨hready.unfinished, fun later hlater => ?_⟩, ?_⟩
    · rw [scan_cons hready hentries, if_pos hcovers]
    · dsimp only at hlater
      rw [hdrop] at hlater
      exact hready.notBefore later (hentries ▸ List.mem_cons_of_mem _ hlater)
    · unfold remaining
      dsimp only
      rw [hdrop]
      rfl

end RangeCursor

/-! ## Iterating -/

def Entry.row (entry : Entry) : IndexRow :=
  ⟨entry.rowOffset, entry.rowLength, entry.coveringInt64⟩

section Iterate

variable {index : Index}

/-- `dsv_index_cursor_next` returns the first entry that any range has left. -/
theorem cursorNext_eq {cursor : Cursor} (hready : ∀ range ∈ cursor, range.Ready index.entries) :
    match cursor.flatMap fun range => range.remaining index.entries with
    | [] => (cursorNext index cursor).2 = none
    | entry :: later => ∃ cursor', cursorNext index cursor = (cursor', some entry.row) ∧
        (∀ range ∈ cursor', range.Ready index.entries) ∧
          (cursor'.flatMap fun range => range.remaining index.entries) = later := by
  induction cursor with
  | nil => rfl
  | cons range cursor ih =>
    obtain ⟨hrange, hcursor⟩ := List.forall_mem_cons.1 hready
    rw [List.flatMap_cons]
    unfold cursorNext
    rw [if_neg (Bool.eq_false_iff.1 hrange.unfinished)]
    cases hremaining : range.remaining index.entries with
    | nil =>
      have hnone := RangeCursor.scan_of_nil hrange hremaining
      cases hscan : range.scan (index.entries.drop range.position) with
      | mk range' found =>
        rw [hscan] at hnone
        cases hnone
        exact ih hcursor
    | cons entry later =>
      obtain ⟨hscan, hnext, hlater⟩ := RangeCursor.scan_of_cons hrange hremaining
      rw [hscan]
      refine ⟨_, rfl, List.forall_mem_cons.2 ⟨hnext, hcursor⟩, ?_⟩
      rw [List.flatMap_cons, hlater]
      rfl

theorem cursorRows_eq {cursor : Cursor} (hready : ∀ range ∈ cursor, range.Ready index.entries)
    {fuel : ℕ} (hfuel : (cursor.flatMap fun range => range.remaining index.entries).length < fuel) :
    cursorRows index fuel cursor =
      (cursor.flatMap fun range => range.remaining index.entries).map Entry.row := by
  induction fuel generalizing cursor with
  | zero => exact absurd hfuel (Nat.not_lt_zero _)
  | succ fuel ih =>
    have hnext := cursorNext_eq hready
    unfold cursorRows
    cases hrows : cursor.flatMap fun range => range.remaining index.entries with
    | nil =>
      rw [hrows] at hnext
      cases hcursor : cursorNext index cursor with
      | mk cursor' found =>
        rw [hcursor] at hnext
        cases hnext
        rfl
    | cons entry later =>
      rw [hrows] at hnext hfuel
      obtain ⟨cursor', hcursor, hready', hlater⟩ := hnext
      rw [hcursor, List.map_cons]
      dsimp only
      rw [ih hready' (by rw [hlater]; exact Nat.lt_of_succ_lt_succ hfuel), hlater]

end Iterate

/-! ## Seeking -/

def Query.Selects (query : Query) (place : List Char × ℚ) : Prop :=
  (∀ text ∈ query.textEquals, place.1 = text) ∧ above query.lower place.2 ∧
    below query.upper place.2

theorem Query.not_selects_of_isEmpty {query : Query} (h : query.isEmpty = true)
    (place : List Char × ℚ) : ¬query.Selects place := by
  rintro ⟨-, habove, hbelow⟩
  obtain ⟨_, lower, upper⟩ := query
  match lower, upper with
  | some lower, some upper =>
    simp only [Query.isEmpty, gt_iff_lt, Bool.or_eq_true, decide_eq_true_eq, Bool.and_eq_true,
      Bool.not_eq_true'] at h
    rcases h with hlt | ⟨heq, hexclusive⟩
    · rcases habove with ha | ⟨-, ha⟩ <;> rcases hbelow with hb | ⟨-, hb⟩ <;> linarith
    · rcases habove with ha | ⟨hlower, ha⟩ <;> rcases hbelow with hb | ⟨hupper, hb⟩
      · linarith
      · linarith
      · linarith
      · rw [hlower, hupper] at hexclusive
        exact hexclusive.elim Bool.noConfusion Bool.noConfusion

theorem Query.not_selects_of_toRange {query : Query} (h : query.toRange = none)
    (place : List Char × ℚ) : ¬query.Selects place := by
  unfold Query.toRange at h
  split_ifs at h with hempty
  exact Query.not_selects_of_isEmpty hempty place

theorem mem_toRange {query : Query} {range : RangeCursor} (htext : query.textEquals ≠ none)
    (h : query.toRange = some range) (place : List Char × ℚ) :
    range.Mem place ↔ query.Selects place := by
  unfold Query.toRange at h
  split_ifs at h
  cases h
  obtain ⟨text, htext⟩ := Option.ne_none_iff_exists'.1 htext
  unfold RangeCursor.Mem Query.Selects
  rw [htext]
  simp

theorem toRange_finished {query : Query} {range : RangeCursor} (h : query.toRange = some range) :
    range.finished = false := by
  unfold Query.toRange at h
  split_ifs at h
  cases h
  rfl

/-- What the queries select lies in ranges that do not meet. -/
theorem mergedRanges_spec (qsort : Qsort RangeCursor.compare) {queries : List Query}
    (htexts : ∀ query ∈ queries, query.textEquals ≠ none) :
    (mergedRanges qsort queries).Pairwise RangeCursor.EndsBefore ∧
      (∀ range ∈ mergedRanges qsort queries, range.finished = false) ∧
        ∀ place, (∃ range ∈ mergedRanges qsort queries, range.Mem place) ↔
          ∃ query ∈ queries, query.Selects place := by
  have hperm := qsort.perm (queries.filterMap Query.toRange)
  have hstarts := (qsort.pairwise (queries.filterMap Query.toRange)).imp
    RangeCursor.startsBy_of_compare
  refine ⟨RangeCursor.pieces.merge_before hstarts, ?_, fun place => ?_⟩
  · refine Coalesce.forall_mem_merge
      (fun a b ha => (RangeCursor.mergeRange_finished a b).trans ha) fun range hrange => ?_
    obtain ⟨query, -, hrange⟩ := List.mem_filterMap.1 (hperm.mem_iff.1 hrange)
    exact toRange_finished hrange
  · refine (RangeCursor.pieces.mem_merge hstarts place).trans ?_
    constructor
    · rintro ⟨range, hrange, hmem⟩
      obtain ⟨query, hquery, hrange⟩ := List.mem_filterMap.1 (hperm.mem_iff.1 hrange)
      exact ⟨query, hquery, (mem_toRange (htexts query hquery) hrange place).1 hmem⟩
    · rintro ⟨query, hquery, hselects⟩
      cases hrange : query.toRange with
      | none => exact absurd hselects (Query.not_selects_of_toRange hrange place)
      | some range =>
        exact ⟨range, hperm.mem_iff.2 (List.mem_filterMap.2 ⟨query, hquery, hrange⟩),
          (mem_toRange (htexts query hquery) hrange place).2 hselects⟩

/-- The rows that a cursor returns are the entries that any of the queries selects. -/
theorem seekMany_rows {qsort : Qsort RangeCursor.compare} {index : Index} {queries : List Query}
    {cursor : Cursor} (hsorted : index.entries.Pairwise Entry.UpTo)
    (h : seekMany qsort index queries = some cursor) {selected : Entry → Bool}
    (hselected : ∀ entry ∈ index.entries, selected entry = true ↔
      ∃ query ∈ queries, query.Selects (entry.textKey, entry.numberKey))
    {fuel : ℕ} (hfuel : index.entries.length < fuel) :
    cursorRows index fuel cursor = (index.entries.filter selected).map Entry.row := by
  unfold seekMany at h
  split_ifs at h with hcount htext
  cases h
  obtain ⟨hbefore, hfinished, hranges⟩ := mergedRanges_spec qsort fun query hquery hnone =>
    htext (List.any_eq_true.2 ⟨query, hquery, by rw [hnone]; rfl⟩)
  -- what the ranges have left is what they cover, one after the other
  have hrows : (((mergedRanges qsort queries).map (·.setPosition index.entries)).flatMap
      fun range => range.remaining index.entries) = index.entries.filter selected := by
    simp only [List.flatMap_map, RangeCursor.remaining_setPosition hsorted]
    rw [Coalesce.flatMap_filter hsorted (hbefore.imp fun {a b} hab x y hx hy hyx => ?_)]
    · refine List.filter_congr fun entry hentry => ?_
      rw [Bool.eq_iff_iff, hselected entry hentry, ← hranges, List.any_eq_true]
      simp only [RangeCursor.covers_iff]
    · rcases RangeCursor.EndsBefore.lt hab hx hy with hlt | ⟨htext, hlt⟩
      · exact hyx.elim hlt.not_gt fun hle => hlt.ne hle.1.symm
      · exact hyx.elim (fun hgt => hgt.ne htext.symm) fun hle => hlt.not_ge hle.2
  refine (cursorRows_eq ?_ ?_).trans (congrArg _ hrows)
  · intro _ hmem
    obtain ⟨range, hrange, rfl⟩ := List.mem_map.1 hmem
    exact RangeCursor.ready_setPosition hsorted (hfinished range hrange)
  · rw [hrows]
    exact (List.length_filter_le _ _).trans_lt hfuel

end Dsv
