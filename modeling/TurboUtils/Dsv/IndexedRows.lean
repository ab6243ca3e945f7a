import TurboUtils.Dsv.Located
import TurboUtils.Dsv.Preservation

/-! Seeking in an index finds the rows that a filter selects: the ranges of a plan select what the
clauses do, from left to right. -/
namespace Dsv

/-! ## Ranges of a plan -/

def Selected (ranges : List Query) (place : List Char × ℚ) : Prop :=
  ∃ range ∈ ranges, range.Selects place

theorem Query.selects_applyLower (query : Query) (value : ℚ) (inclusive : Bool)
    (place : List Char × ℚ) : (query.applyLower value inclusive).Selects place ↔
      query.Selects place ∧ above (some ⟨value, inclusive⟩) place.2 := by
  obtain ⟨text, lower, upper⟩ := query
  obtain ⟨key, x⟩ := place
  have hlower : above (Query.applyLower ⟨text, lower, upper⟩ value inclusive).lower x ↔
      above lower x ∧ above (some ⟨value, inclusive⟩) x := by
    unfold applyLower
    match lower with
    | none => simp [above]
    | some ⟨number, strict⟩ =>
      dsimp only
      split_ifs with h
      · refine ⟨fun hx => ⟨?_, hx⟩, And.right⟩
        rcases h with h | ⟨rfl, rfl, h⟩
        · exact .inl (hx.elim h.trans fun hx => hx.2 ▸ h)
        · exact .inl (hx.elim id fun hx => absurd hx.1 Bool.false_ne_true)
      · obtain ⟨hle, hstrict⟩ := not_or.1 h
        refine ⟨fun hx => ⟨hx, ?_⟩, And.left⟩
        rcases (not_lt.1 hle).lt_or_eq with hlt | rfl
        · exact .inl (hx.elim hlt.trans fun hx => hx.2 ▸ hlt)
        · rcases hx with hx | ⟨hinclusive, hx⟩
          · exact .inl hx
          · refine .inr ⟨?_, hx⟩
            by_contra hfalse
            exact hstrict ⟨rfl, Bool.not_eq_true _ ▸ hfalse, hinclusive⟩
  have hrest : (Query.applyLower ⟨text, lower, upper⟩ value inclusive).textEquals = text ∧
      (Query.applyLower ⟨text, lower, upper⟩ value inclusive).upper = upper := by
    unfold applyLower
    dsimp only
    split
    · exact ⟨rfl, rfl⟩
    · split_ifs <;> exact ⟨rfl, rfl⟩
  unfold Selects
  rw [hrest.1, hrest.2, hlower]
  tauto

theorem Query.selects_applyUpper (query : Query) (value : ℚ) (inclusive : Bool)
    (place : List Char × ℚ) : (query.applyUpper value inclusive).Selects place ↔
      query.Selects place ∧ below (some ⟨value, inclusive⟩) place.2 := by
  obtain ⟨text, lower, upper⟩ := query
  obtain ⟨key, x⟩ := place
  have hupper : below (Query.applyUpper ⟨text, lower, upper⟩ value inclusive).upper x ↔
      below upper x ∧ below (some ⟨value, inclusive⟩) x := by
    unfold applyUpper
    match upper with
    | none => simp [below]
    | some ⟨number, strict⟩ =>
      dsimp only
      split_ifs with h
      · refine ⟨fun hx => ⟨?_, hx⟩, And.right⟩
        rcases h with h | ⟨rfl, rfl, h⟩
        · exact .inl (hx.elim (fun hx => hx.trans h) fun hx => hx.2 ▸ h)
        · exact .inl (hx.elim id fun hx => absurd hx.1 Bool.false_ne_true)
      · obtain ⟨hle, hstrict⟩ := not_or.1 h
        refine ⟨fun hx => ⟨hx, ?_⟩, And.left⟩
        rcases (not_lt.1 hle).lt_or_eq with hlt | rfl
        · exact .inl (hx.elim (fun hx => hx.trans hlt) fun hx => hx.2 ▸ hlt)
        · rcases hx with hx | ⟨hinclusive, hx⟩
          · exact .inl hx
          · refine .inr ⟨?_, hx⟩
            by_contra hfalse
            exact hstrict ⟨rfl, Bool.not_eq_true _ ▸ hfalse, hinclusive⟩
  have hrest : (Query.applyUpper ⟨text, lower, upper⟩ value inclusive).textEquals = text ∧
      (Query.applyUpper ⟨text, lower, upper⟩ value inclusive).lower = lower := by
    unfold applyUpper
    dsimp only
    split
    · exact ⟨rfl, rfl⟩
    · split_ifs <;> exact ⟨rfl, rfl⟩
  unfold Selects
  rw [hrest.1, hrest.2, hupper]
  tauto

theorem planAppend_selected {ranges ranges' : List Query} {range : Query}
    (h : planAppend ranges range = .ok ranges') (place : List Char × ℚ) :
    Selected ranges' place ↔ Selected ranges place ∨ range.Selects place := by
  unfold planAppend at h
  split_ifs at h with hempty
  · cases h
    exact (or_iff_left (Query.not_selects_of_isEmpty hempty place)).symm
  · cases h
    unfold Selected
    simp only [List.mem_append, List.mem_singleton, or_and_right, exists_or, exists_eq_left]

theorem planIntersectRange_selected {op : Op} {value : ℚ} {next next' : List Query} {range : Query}
    (h : planIntersectRange op value next range = .ok next') (place : List Char × ℚ) :
    Selected next' place ↔
      Selected next place ∨ (range.Selects place ∧ exact.compare op place.2 value = true) := by
  have hcompare : ∀ {o : Ordering}, Ord.compare place.2 value = o →
      exact.compare op place.2 value = op.holds o := by
    rintro _ rfl
    rfl
  have hbounds : ∀ range : Query, (exact.compare op place.2 value = true ↔
      match op with
      | .eq => above (some ⟨value, true⟩) place.2 ∧ below (some ⟨value, true⟩) place.2
      | .ne => below (some ⟨value, false⟩) place.2 ∨ above (some ⟨value, false⟩) place.2
      | .gt => above (some ⟨value, false⟩) place.2
      | .ge => above (some ⟨value, true⟩) place.2
      | .lt => below (some ⟨value, false⟩) place.2
      | .le => below (some ⟨value, true⟩) place.2) := by
    intro range
    rcases lt_trichotomy place.2 value with hlt | heq | hgt
    · rw [hcompare (compare_lt_iff_lt.2 hlt)]
      cases op <;> simp [above, below, Op.holds, hlt, hlt.ne, hlt.ne', hlt.not_gt]
    · rw [hcompare (compare_eq_iff_eq.2 heq)]
      cases op <;> simp [above, below, Op.holds, heq]
    · rw [hcompare (compare_gt_iff_gt.2 hgt)]
      cases op <;> simp [above, below, Op.holds, hgt, hgt.ne, hgt.ne', hgt.not_gt]
  rw [hbounds range]
  cases op with
  | eq =>
    rw [planAppend_selected h, Query.selects_applyUpper, Query.selects_applyLower, and_assoc]
  | ne =>
    obtain ⟨mid, hmid, h⟩ := Fallible.bind_eq_ok.1 h
    rw [planAppend_selected h, planAppend_selected hmid, Query.selects_applyUpper,
      Query.selects_applyLower, or_assoc, ← and_or_left]
  | gt => rw [planAppend_selected h, Query.selects_applyLower]
  | ge => rw [planAppend_selected h, Query.selects_applyLower]
  | lt => rw [planAppend_selected h, Query.selects_applyUpper]
  | le => rw [planAppend_selected h, Query.selects_applyUpper]

theorem selected_and (ranges : List Query) (place : List Char × ℚ) (p : Prop) :
    (Selected [] place ∨ ∃ range ∈ ranges, range.Selects place ∧ p) ↔
      Selected ranges place ∧ p := by
  simp only [Selected, List.not_mem_nil, false_and, exists_false, false_or, ← and_assoc,
    exists_and_right]

theorem planIntersectNumber_selected {op : Op} {value : ℚ} {ranges ranges' : List Query}
    (h : planIntersectNumber op value ranges = .ok ranges') (place : List Char × ℚ) :
    Selected ranges' place ↔
      Selected ranges place ∧ exact.compare op place.2 value = true := by
  unfold planIntersectNumber at h
  have hstep : ∀ next, ∀ range ∈ ranges, ∀ next',
      planIntersectRange op value next range = .ok next' →
        (Selected next' place ↔ Selected next place ∨
          (range.Selects place ∧ exact.compare op place.2 value = true)) :=
    fun next range _ next' h => planIntersectRange_selected h place
  exact (Fallible.foldlM_exists hstep h).trans (selected_and ranges place _)

theorem evalStr_iff {op : Op} (hop : ¬(op ≠ .eq ∧ op ≠ .ne)) (text value : List Char) :
    evalStr op text value = true ↔ (op = .eq ∧ text = value) ∨ (op = .ne ∧ text ≠ value) := by
  rw [← cmpBytes_eq_iff, ne_eq, ← cmpBytes_eq_iff]
  unfold evalStr
  cases op <;> cases cmpBytes text value <;> simp_all [Op.holds]

theorem planIntersectTextRange_selected {op : Op} {value : List Char} {next next' : List Query}
    {range : Query} (hop : ¬(op ≠ .eq ∧ op ≠ .ne))
    (h : planIntersectTextRange op value next range = .ok next') (place : List Char × ℚ) :
    Selected next' place ↔
      Selected next place ∨ (range.Selects place ∧ evalStr op place.1 value = true) := by
  have happend : ∀ range : Query, Selected (next ++ [range]) place ↔
      Selected next place ∨ range.Selects place := by
    intro range
    simp only [Selected, List.mem_append, List.mem_singleton, or_and_right, exists_or,
      exists_eq_left]
  rw [evalStr_iff hop]
  obtain ⟨textEquals, lower, upper⟩ := range
  unfold planIntersectTextRange at h
  match textEquals with
  | none =>
    dsimp only at h
    split_ifs at h with hne
    cases h
    have heq : op = .eq := by tauto
    rw [happend, heq]
    simp [Query.Selects]
    tauto
  | some text =>
    dsimp only at h
    -- a range whose text the clause excludes selects nothing that the clause does not exclude
    split_ifs at h with hkeep
    · cases h
      rw [happend]
      refine or_congr_right (iff_self_and.2 fun hselects => ?_)
      rw [hselects.1 text rfl]
      exact hkeep
    · cases h
      refine (or_iff_left fun hboth => hkeep ?_).symm
      rw [← hboth.1.1 text rfl]
      exact hboth.2

theorem planIntersectText_selected {op : Op} {value : List Char} {ranges ranges' : List Query}
    (h : planIntersectText op value ranges = .ok ranges') (place : List Char × ℚ) :
    Selected ranges' place ↔ Selected ranges place ∧ evalStr op place.1 value = true := by
  unfold planIntersectText at h
  split_ifs at h with hop
  have hstep : ∀ next, ∀ range ∈ ranges, ∀ next',
      planIntersectTextRange op value next range = .ok next' →
        (Selected next' place ↔ Selected next place ∨
          (range.Selects place ∧ evalStr op place.1 value = true)) :=
    fun next range _ next' h => planIntersectTextRange_selected hop h place
  exact (Fallible.foldlM_exists hstep h).trans (selected_and ranges place _)

/-! ## Clauses -/

section Clauses

variable {textColumn numberColumn : ℕ}

def Clause.holdsAt (clause : Clause ℚ) (place : List Char × ℚ) : Bool :=
  match clause with
  | .text _ op rhs => evalStr op place.1 rhs
  | .number _ op rhs => exact.compare op place.2 rhs

def Clause.Covered (textColumn numberColumn : ℕ) : Clause ℚ → Prop
  | .text column _ _ => column = textColumn
  | .number (.column column) _ _ => column = numberColumn
  | .number (.arith _) _ _ => False

theorem planIntersectClause_selected {clause : Clause ℚ} {ranges ranges' : List Query}
    (h : planIntersectClause textColumn numberColumn ranges clause = .ok ranges') :
    clause.Covered textColumn numberColumn ∧
      ∀ place, Selected ranges' place ↔ Selected ranges place ∧ clause.holdsAt place = true := by
  unfold planIntersectClause at h
  match clause with
  | .text column op rhs =>
    dsimp only at h
    split_ifs at h with hcolumn
    exact ⟨hcolumn, planIntersectText_selected h⟩
  | .number (.column column) op rhs =>
    dsimp only at h
    split_ifs at h with hcolumn
    exact ⟨hcolumn, planIntersectNumber_selected h⟩
  | .number (.arith items) op rhs => cases h

theorem planUnionClause_selected {clause : Clause ℚ} {ranges ranges' : List Query}
    (h : planUnionClause textColumn numberColumn ranges clause = .ok ranges') :
    clause.Covered textColumn numberColumn ∧
      ∀ place, Selected ranges' place ↔ Selected ranges place ∨ clause.holdsAt place = true := by
  unfold planUnionClause at h
  match clause with
  | .text column op rhs =>
    dsimp only at h
    split_ifs at h with hcolumn hop
    refine ⟨hcolumn, fun place => (planAppend_selected h place).trans (or_congr_right ?_)⟩
    have hop := not_not.1 hop
    unfold Clause.holdsAt
    dsimp only
    rw [evalStr_iff (fun hboth => hboth.1 hop)]
    simp [Query.Selects, Query.all, above, below, hop]
  | .number (.column column) op rhs =>
    dsimp only at h
    split_ifs at h with hcolumn
    obtain ⟨additions, hadditions, h⟩ := Fallible.bind_eq_ok.1 h
    split_ifs at h
    cases h
    refine ⟨hcolumn, fun place => ?_⟩
    have hall : Selected [Query.all] place := ⟨_, List.mem_singleton_self _, by
      simp [Query.Selects, Query.all, above, below]⟩
    have hselected := planIntersectNumber_selected hadditions place
    rw [and_iff_right hall] at hselected
    unfold Clause.holdsAt
    dsimp only
    rw [← hselected]
    simp only [Selected, List.mem_append, or_and_right, exists_or]
  | .number (.arith items) op rhs => cases h

def placeOf (textColumn numberColumn : ℕ) (fields : Csv.Row) : List Char × ℚ :=
  (fields.getD textColumn [], fastAtof (fields.getD numberColumn []))

theorem evalClause_eq {clause : Clause ℚ} {columnCount : ℕ} (hrange : clause.InRange columnCount)
    (hcovered : clause.Covered textColumn numberColumn) (fields : Csv.Row) :
    evalClause exact (valuesRow exact fields) columnCount clause =
      some (clause.holdsAt (placeOf textColumn numberColumn fields)) := by
  match clause with
  | .text column op rhs =>
    cases hcovered
    rfl
  | .number (.column column) op rhs =>
    cases hcovered
    have hcolumn : ¬columnCount ≤ numberColumn := Nat.not_le.2 hrange
    rw [evalClause, evalLhs, if_neg hcolumn]
    rfl
  | .number (.arith items) op rhs => cases hcovered

/-- After some clauses, the ranges select the rows that those clauses do. -/
theorem planLoop_selected {columnCount : ℕ} {joins : List Join} {clauses : List (Clause ℚ)}
    (hrange : ∀ clause ∈ clauses, clause.InRange columnCount) {i : ℕ} {ranges ranges' : List Query}
    (h : planLoop textColumn numberColumn joins clauses (i + 1) ranges = .ok ranges')
    (fields : Csv.Row) {result : Bool}
    (hresult : Selected ranges (placeOf textColumn numberColumn fields) ↔ result = true) :
    ∃ result', checkLoop exact (valuesRow exact fields) columnCount joins clauses (i + 1) result =
        some result' ∧
      (Selected ranges' (placeOf textColumn numberColumn fields) ↔ result' = true) := by
  induction clauses generalizing i ranges result with
  | nil =>
    cases h
    exact ⟨result, rfl, hresult⟩
  | cons clause clauses ih =>
    obtain ⟨hclause, hrange⟩ := List.forall_mem_cons.1 hrange
    unfold planLoop at h
    obtain ⟨mid, hmid, h⟩ := Fallible.bind_eq_ok.1 h
    unfold checkLoop
    by_cases hand : joins[i + 1 - 1]? = some .and
    · rw [if_pos (.inr hand)] at hmid
      obtain ⟨hcovered, hselected⟩ := planIntersectClause_selected hmid
      rw [evalClause_eq hclause hcovered, Option.bind_some, if_neg (Nat.succ_ne_zero i),
        if_pos hand]
      refine ih hrange h ?_
      rw [hselected, hresult, Bool.and_eq_true]
    · rw [if_neg (not_or.2 ⟨Nat.succ_ne_zero i, hand⟩)] at hmid
      obtain ⟨hcovered, hselected⟩ := planUnionClause_selected hmid
      rw [evalClause_eq hclause hcovered, Option.bind_some, if_neg (Nat.succ_ne_zero i),
        if_neg hand]
      refine ih hrange h ?_
      rw [hselected, hresult, Bool.or_eq_true]

/-- The ranges of a plan select the rows that its clauses do. -/
theorem plan_selected {plan : Plan ℚ} {columnCount : ℕ} (hproper : plan.Proper columnCount)
    {ranges : List Query}
    (h : planLoop textColumn numberColumn plan.joins plan.clauses 0 [.all] = .ok ranges)
    (fields : Csv.Row) :
    Selected ranges (placeOf textColumn numberColumn fields) ↔
      checkNative exact (valuesRow exact fields) columnCount plan = some true := by
  obtain ⟨clauses, joins⟩ := plan
  obtain ⟨hjoins, hrange⟩ := hproper
  dsimp only at hjoins hrange h
  match clauses with
  | clause :: clauses =>
    obtain ⟨hclause, hrange⟩ := List.forall_mem_cons.1 hrange
    unfold planLoop at h
    obtain ⟨mid, hmid, h⟩ := Fallible.bind_eq_ok.1 h
    rw [if_pos (.inl rfl)] at hmid
    obtain ⟨hcovered, hselected⟩ := planIntersectClause_selected hmid
    have hall : Selected [Query.all] (placeOf textColumn numberColumn fields) :=
      ⟨_, List.mem_singleton_self _, by simp [Query.Selects, Query.all, above, below]⟩
    obtain ⟨result, hcheck, hresult⟩ := planLoop_selected hrange h fields
      (by rw [hselected, and_iff_right hall])
    unfold checkNative checkLoop
    rw [evalClause_eq hclause hcovered, Option.bind_some, if_pos rfl]
    rw [hcheck, Option.some_inj]
    exact hresult

end Clauses

/-! ## Seeking -/

/-- The rows that a filter selects: its clauses, joined from left to right, hold of them. -/
def Plan.selects (plan : Plan ℚ) (columnCount : ℕ) (row : DataRow) : Bool :=
  (plan.clauses.mapM (evalClause exact (valuesRow exact row.fields) columnCount)).map
    (leftAssociative · plan.joins) = some true

/-- The rows of a cursor are the entries at the places that the ranges of the plan select. -/
theorem filterIndexSeek_rows {qsort : Qsort RangeCursor.compare} {plan : Plan ℚ} {index : Index}
    {cursor : Cursor} (hsorted : index.entries.Pairwise Entry.UpTo)
    (hseek : filterIndexSeek qsort plan index = .ok cursor) :
    ∃ ranges, planLoop index.textColumn index.numberColumn plan.joins plan.clauses 0 [.all] =
        .ok ranges ∧
      ∀ (selected : Entry → Bool), (∀ entry ∈ index.entries, selected entry = true ↔
        Selected ranges (entry.textKey, entry.numberKey)) →
          ∀ fuel, index.entries.length < fuel →
            cursorRows index fuel cursor = (index.entries.filter selected).map Entry.row := by
  unfold filterIndexSeek at hseek
  obtain ⟨ranges, hplan, hseek⟩ := Fallible.bind_eq_ok.1 hseek
  refine ⟨ranges, hplan, fun selected hselected fuel hfuel => ?_⟩
  split_ifs at hseek with htexts hempty
  · cases hseek
    have hnone : index.entries.filter selected = [] := by
      refine List.filter_eq_nil_iff.2 fun entry hentry hselects => ?_
      obtain ⟨query, hquery, -⟩ := (hselected entry hentry).1 hselects
      exact absurd hquery (hempty ▸ List.not_mem_nil)
    rw [hnone]
    cases fuel <;> rfl
  · cases hmany : seekMany qsort index ranges with
    | none =>
      rw [hmany] at hseek
      cases hseek
    | some found =>
      rw [hmany] at hseek
      cases hseek
      exact seekMany_rows hsorted hmany hselected hfuel

/-- The rows that are iterated are the rows of the content, without the header, that the filter
selects, in the order of the index, which is that of the texts, the numbers and the places. -/
theorem indexed_rows (config : IndexConfig) (hash : List Char → ℕ) (qsort : Qsort entryCompare)
    (qsortRanges : Qsort RangeCursor.compare) (content : List Char) (sourceMtime : ℕ) (index : Index)
    (hbuild : buildInternal config hash qsort content sourceMtime = .ok index)
    (columns : List Column) (exprParse : ExprParse ℚ) (expression : List Char) (plan : Plan ℚ)
    (hcompile : compile exact columns exprParse expression = .ok plan) (cursor : Cursor)
    (hseek : filterIndexSeek qsortRanges plan index = .ok cursor) :
    openInternal hash index content 0 = .ok index ∧
      (locatedRows content).map DataRow.fields = Csv.csvIter content ∧
        (locatedRows content).Pairwise DataRow.Before ∧
          ∃ rows : List DataRow, rows.Perm (dataRows config content) ∧
            index.entries = rows.map (DataRow.entry config) ∧
              (index.entries.Pairwise fun a b => (entryCompare a b).isLE) ∧
                ∀ fuel, rows.length < fuel → cursorRows index fuel cursor =
                  (rows.filter (plan.selects columns.length)).map fun row =>
                    (row.entry config).row := by
  have hproper := compile_proper hcompile
  obtain ⟨htext, hnumber, hsorted, hperm, hbefore, -⟩ := buildInternal_holds hbuild
  obtain ⟨rows, hentries, hrows⟩ : ∃ rows : List DataRow,
      index.entries = rows.map (DataRow.entry config) ∧ rows.Perm (dataRows config content) := by
    have hcomp := List.eq_map_comp_perm (DataRow.entry config)
    exact (congrFun₂ hcomp index.entries (dataRows config content)).mpr hperm
  refine ⟨openInternal_buildInternal hbuild (.inl rfl), map_fields_rowsFrom _ _ _, hbefore, rows,
    hrows, hentries, hsorted, fun fuel hfuel => ?_⟩
  obtain ⟨ranges, hplan, hcursor⟩ := filterIndexSeek_rows (hsorted.imp upTo_of_entryCompare) hseek
  rw [htext, hnumber] at hplan
  classical
  rw [hcursor (fun entry => decide (Selected ranges (entry.textKey, entry.numberKey)))
    (fun entry _ => decide_eq_true_iff) fuel (by rwa [hentries, List.length_map]), hentries,
    List.filter_map, List.map_map]
  congr 1
  refine List.filter_congr fun row _ => ?_
  have hselected := plan_selected hproper hplan row.fields
  rw [checkNative_eq exact (valuesRow exact row.fields) hproper] at hselected
  exact decide_eq_decide.2 hselected

/-! ## Sorting by insertion -/

theorem cmpBytes_eq_compare (a b : List Char) : cmpBytes a b = Ord.compare a b := by
  induction a, b using cmpBytes.induct with
  | case1 => rfl
  | case2 => rfl
  | case3 => rfl
  | case4 a as b bs ih =>
    have hchar : Ord.compare a.toNat b.toNat = Ord.compare a b := by
      rcases lt_trichotomy a b with h | h | h
      · rw [compare_lt_iff_lt.2 h]
        exact compare_lt_iff_lt.2 h
      · rw [compare_eq_iff_eq.2 h, h]
        exact compare_eq_iff_eq.2 rfl
      · rw [compare_gt_iff_gt.2 h]
        exact compare_gt_iff_gt.2 h
    rw [cmpBytes, ih, List.compare_cons_cons, hchar]

instance : Std.TransCmp entryCompare := by
  have heq : entryCompare = compareLex (compareOn Entry.textKey)
      (compareLex (compareOn Entry.numberKey) (compareOn Entry.rowOffset)) := by
    funext a b
    rw [entryCompare, cmpBytes_eq_compare]
    rfl
  rw [heq]
  infer_instance

def RangeCursor.start (range : RangeCursor) : Option (ℚ ×ₗ Bool) :=
  range.lower.map fun lower => toLex (lower.number, !lower.inclusive)

instance : Std.TransCmp RangeCursor.compare := by
  have heq : RangeCursor.compare =
      compareLex (compareOn RangeCursor.text) (compareOn RangeCursor.start) := by
    funext a b
    rw [RangeCursor.compare, cmpBytes_eq_compare]
    unfold compareLex compareOn RangeCursor.start
    congr 1
    obtain ⟨_, alower, _, _, _⟩ := a
    obtain ⟨_, blower, _, _, _⟩ := b
    match alower, blower with
    | none, none => rfl
    | none, some _ => rfl
    | some _, none => rfl
    | some ⟨a, ainclusive⟩, some ⟨b, binclusive⟩ => cases ainclusive <;> cases binclusive <;> rfl
  rw [heq]
  infer_instance

def insertionQsort {α : Type} (compare : α → α → Ordering) [Std.TransCmp compare] :
    Qsort compare where
  sort := BinarySearch.sortBy compare
  perm := BinarySearch.sortBy_perm compare
  pairwise := BinarySearch.sortBy_pairwise compare

def keysAndNumbers : List Char := "k,n\na,1\nb,2\na,3\na,2.0\n".toList

def keysConfig : IndexConfig := ⟨0, 1, none, 0, true⟩

def keysColumns : List Column := [⟨['k'], ['k'], .string⟩, ⟨['n'], ['n'], .number⟩]

theorem indexed_rows_keysAndNumbers : ∃ index plan cursor, ∃ rows : List DataRow,
    buildInternal keysConfig List.length (insertionQsort _) keysAndNumbers 0 = .ok index ∧
      filterIndexSeek (insertionQsort _) plan index = .ok cursor ∧
        rows.Perm (dataRows keysConfig keysAndNumbers) ∧ cursorRows index 5 cursor =
          (rows.filter (plan.selects 2)).map fun row => (row.entry keysConfig).row := by
  let build := buildInternal keysConfig List.length (insertionQsort _) keysAndNumbers 0
  let expression := "k == \"a\" and n != 2 or k == \"b\"".toList
  let compiled := compile exact keysColumns (fun _ => .ok []) expression
  have hfound : (build.toOption.bind fun index => compiled.toOption.bind fun plan =>
      (filterIndexSeek (insertionQsort _) plan index).toOption).isSome = true := by
    decide +kernel
  have hok : ∀ {α : Type} {x : Except String α} {a : α}, x.toOption = some a → x = .ok a := by
    intro α x a h
    cases x with
    | error message => cases h
    | ok b =>
      cases h
      rfl
  obtain ⟨cursor, hcursor⟩ := Option.isSome_iff_exists.1 hfound
  obtain ⟨index, hindex, hcursor⟩ := Option.bind_eq_some_iff.1 hcursor
  obtain ⟨plan, hplan, hcursor⟩ := Option.bind_eq_some_iff.1 hcursor
  obtain ⟨-, -, -, rows, hrows, -, -, hall⟩ := indexed_rows keysConfig List.length
    (insertionQsort _) (insertionQsort _) keysAndNumbers 0 index (hok hindex) keysColumns
    (fun _ => .ok []) expression plan (hok hplan) cursor (hok hcursor)
  have hcount : rows.length = 4 := hrows.length_eq.trans (by decide +kernel)
  exact ⟨index, plan, cursor, rows, hok hindex, hok hcursor, hrows,
    hall 5 (hcount ▸ Nat.lt_succ_self 4)⟩

end Dsv
