import TurboUtils.Csv.FilterScan
import TurboUtils.Dsv.Located

/-! What a scan that succeeds has reported: the rows of the document that its predicates select. -/
namespace Csv

def afterByte (source : Char) : List Char → List Char
  | [] => []
  | d :: after => if source = '"' ∧ d = '"' then after else d :: after

theorem unescape_cons (c : Char) (rest : List Char) :
    unescape (c :: rest) = c :: unescape (afterByte c rest) := by
  rw [unescape.eq_def]
  by_cases hc : c = '"'
  · subst hc
    cases rest with
    | nil => rfl
    | cons d after =>
      by_cases hd : d = '"'
      · simp [afterByte, hd]
      · simp [afterByte, hd]
  · cases rest with
    | nil => simp [afterByte, hc]
    | cons d after => simp [afterByte, hc]

theorem compareUnescaped_cons (source : Char) (rest : List Char) (c : Char) (rhs : List Char) :
    compareUnescaped (source :: rest) (c :: rhs) =
      if source ≠ c then if source.toNat < c.toNat then .lt else .gt
      else compareUnescaped (afterByte source rest) rhs := by
  rw [compareUnescaped.eq_def]
  cases rest with
  | nil => rfl
  | cons d after =>
    dsimp only [afterByte]
    split_ifs <;> rfl

/-- A field with doubled quotes is compared like the text that it stands for. -/
theorem compareUnescaped_eq (value rhs : List Char) :
    compareUnescaped value rhs = Dsv.cmpBytes (unescape value) rhs := by
  induction rhs generalizing value with
  | nil =>
    cases value with
    | nil => rfl
    | cons source rest =>
      rw [unescape_cons]
      rfl
  | cons c rhs ih =>
    cases value with
    | nil => rfl
    | cons source rest =>
      rw [unescape_cons, compareUnescaped_cons, Dsv.cmpBytes]
      by_cases hsame : source = c
      · subst hsame
        rw [if_neg (not_not.2 rfl), ih, compare_eq_iff_eq.2 rfl]
        rfl
      · rw [if_pos hsame]
        split_ifs with hlt
        · rw [compare_lt_iff_lt.2 hlt]
          rfl
        · have hgt : c.toNat < source.toNat := lt_of_le_of_ne (not_lt.1 hlt)
            fun heq => hsame (Char.toNat_inj.1 heq.symm)
          rw [compare_gt_iff_gt.2 hgt]
          rfl

def ScanPredicate.holdsOf (predicate : ScanPredicate) (cell : List Char) : Bool :=
  match predicate.type with
  | .text => predicate.op.holds (Dsv.cmpBytes cell (predicate.text.getD []))
  | .int64 => (scanParseInt64 cell).any fun integer =>
      predicate.op.holds (Ord.compare integer predicate.integer)
  | .double => predicate.op.holds
      (scanNumberCompare (.finite (Dsv.fastAtof cell)) predicate.number)
  | .other _ => false

theorem ScanPredicate.matches_eq {predicate : ScanPredicate} {field : ScanField} {b : Bool}
    (h : predicate.matches field = some b) : predicate.holdsOf (scanDecode field) = b := by
  obtain ⟨value, needsUnescape⟩ := field
  unfold ScanPredicate.matches at h
  unfold ScanPredicate.holdsOf scanDecode fieldText
  cases htype : predicate.type with
  | text =>
    rw [htype] at h
    cases h
    cases needsUnescape with
    | true => simp only [scanTextCompare, if_true, compareUnescaped_eq]
    | false => rfl
  | int64 =>
    rw [htype] at h
    dsimp only at h ⊢
    cases needsUnescape with
    | true => cases h
    | false =>
      obtain ⟨integer, hinteger, rfl⟩ := Option.map_eq_some_iff.1 h
      rw [if_neg Bool.false_ne_true] at hinteger ⊢
      rw [hinteger]
      rfl
  | double =>
    rw [htype] at h
    dsimp only at h ⊢
    cases needsUnescape with
    | true => cases h
    | false =>
      obtain ⟨number, hnumber, rfl⟩ := Option.map_eq_some_iff.1 h
      rw [if_neg Bool.false_ne_true] at hnumber ⊢
      rw [Dsv.parseDouble_eq hnumber]
  | other raw =>
    rw [htype] at h
    cases h

/-- The fields that are kept of a row are those of their columns. -/
def Kept (row : Row) (columns : List ℕ) (kept : List (Option ScanField)) : Prop :=
  List.Forall₂ (fun column field => field.map scanDecode = row[column]?) columns kept

theorem Kept.orEmpty {row : Row} {column : ℕ} {field : Option ScanField}
    (h : field.map scanDecode = row[column]?) :
    scanDecode (.orEmpty field) = row.getD column [] := by
  rw [List.getD_eq_getElem?_getD, ← h]
  cases field <;> rfl

theorem predicatesMatch_eq {predicates : List ScanPredicate} {kept : List (Option ScanField)}
    {row : Row} (hkept : Kept row (predicates.map ScanPredicate.column) kept) {b : Bool}
    (h : predicatesMatch predicates kept = .ok b) :
    predicates.all (fun predicate => predicate.holdsOf (row.getD predicate.column [])) = b := by
  induction predicates generalizing kept with
  | nil =>
    cases hkept
    cases h
    rfl
  | cons predicate predicates ih =>
    obtain ⟨field, kept, hfield, hrest, rfl⟩ := List.forall₂_cons_left_iff.1 hkept
    rw [predicatesMatch] at h
    rw [List.all_cons, ← Kept.orEmpty hfield]
    cases hmatches : predicate.matches (.orEmpty field) with
    | none =>
      rw [hmatches] at h
      cases h
    | some found =>
      rw [hmatches] at h
      rw [ScanPredicate.matches_eq hmatches]
      cases found with
      | false =>
        cases h
        rfl
      | true => exact ih hrest h

section Reports

variable {σ : Type} {plan : ScanPlan σ} {s s' : FilterScan σ} {row : Row} {rows : List Row} {ctx : σ}

theorem Kept.keep {columns : List ℕ} {kept : List (Option ScanField)} (hkept : Kept row columns kept)
    (hcolumn : s.column = row.length) (field : ScanField) :
    Kept (row ++ [scanDecode field]) columns (s.keep columns field kept) := by
  induction hkept with
  | nil => exact .nil
  | @cons column old columns kept hold _ ih =>
    refine .cons ?_ ih
    dsimp only
    split_ifs with heq
    · rw [heq, hcolumn, List.getElem?_concat_length]
      rfl
    · rw [hold]
      rcases lt_trichotomy column row.length with hlt | hlast | hgt
      · rw [List.getElem?_append_left hlt]
      · exact absurd (hlast.trans hcolumn.symm) heq
      · rw [List.getElem?_eq_none hgt.le, List.getElem?_eq_none]
        rw [List.length_append, List.length_singleton]
        omega

theorem Kept.skip {columns : List ℕ} {kept : List (Option ScanField)} (hkept : Kept row columns kept)
    (hcolumn : row.length ∉ columns) (value : List Char) : Kept (row ++ [value]) columns kept := by
  induction hkept with
  | nil => exact .nil
  | @cons column old columns kept hold _ ih =>
    rw [List.mem_cons, not_or] at hcolumn
    refine .cons ?_ (ih hcolumn.2)
    rw [hold]
    rcases lt_or_gt_of_ne hcolumn.1 with hlt | hgt
    · rw [List.getElem?_eq_none hlt.le, List.getElem?_eq_none]
      rw [List.length_append, List.length_singleton]
      omega
    · rw [List.getElem?_append_left hgt]

theorem Kept.none (predicates : List ScanPredicate) :
    Kept [] (predicates.map ScanPredicate.column) (predicates.map fun _ => none) := by
  induction predicates with
  | nil => exact .nil
  | cons predicate predicates ih => exact .cons rfl ih

def callMatches (onMatch : Option (σ → ℕ → List ScanValue → Option σ)) (ctx : σ)
    (calls : List (ℕ × List ScanValue)) : Option σ :=
  match onMatch with
  | none => some ctx
  | some onMatch => calls.foldlM (fun ctx (rowIndex, values) => onMatch ctx rowIndex values) ctx

namespace ScanPlan

variable (plan)

def selects (row : Row) : Bool :=
  plan.predicates.all fun predicate => predicate.holdsOf (row.getD predicate.column [])

def selected (rows : List Row) : List ℕ :=
  (rows.zipIdx.filter fun (row, _) => plan.selects row).map Prod.snd

/-- The rows that are selected have been counted and reported in their order. -/
def Reports (ctx : σ) (rows : List Row) (matchCount : ℕ) (ctx' : σ) : Prop :=
  ∃ calls : List (ℕ × List ScanValue), calls.map Prod.fst = plan.selected rows ∧
    matchCount = calls.length ∧ callMatches plan.onMatch ctx calls = some ctx'

theorem selected_concat (rows : List Row) (row : Row) : plan.selected (rows ++ [row]) =
    plan.selected rows ++ if plan.selects row then [rows.length] else [] := by
  unfold selected
  rw [List.zipIdx_append, List.filter_append, List.map_append]
  congr 1
  by_cases hrow : plan.selects row = true
  · simp [hrow]
  · simp [hrow]

theorem le_maxSelectedColumn {column : ℕ} (h : column ∈ plan.predicateColumns) :
    column ≤ plan.maxSelectedColumn := by
  have hmax : ∀ (columns : List ℕ) (m : ℕ), m ≤ columns.foldl max m ∧
      ∀ column ∈ columns, column ≤ columns.foldl max m := by
    intro columns
    induction columns with
    | nil => exact fun m => ⟨le_rfl, nofun⟩
    | cons first columns ih =>
      intro m
      obtain ⟨hle, hall⟩ := ih (max m first)
      refine ⟨(le_max_left _ _).trans hle, List.forall_mem_cons.2 ⟨?_, hall⟩⟩
      exact (le_max_right _ _).trans hle
  exact (hmax _ 0).2 column (List.mem_append_left _ h)

end ScanPlan

/-- A row that ends is reported if it is selected. -/
theorem finalizeRow_reports {matchRows : List Row}
    (hkept : Kept row plan.predicateColumns s.predicateFields)
    (hindex : s.rowIndex = matchRows.length)
    (hreports : plan.Reports ctx matchRows s.matchCount s.ctx) (h : s.finalizeRow plan = .ok s') :
    plan.Reports ctx (matchRows ++ [row]) s'.matchCount s'.ctx ∧ s'.rowIndex = s.rowIndex ∧
      s'.skipHeader = s.skipHeader := by
  obtain ⟨calls, hcalls, hcount, hdeliver⟩ := hreports
  unfold FilterScan.finalizeRow at h
  obtain ⟨found, hfound, h⟩ := Fallible.bind_eq_ok.1 h
  have hselects : plan.selects row = found := predicatesMatch_eq hkept hfound
  unfold ScanPlan.Reports
  rw [ScanPlan.selected_concat, hselects]
  cases found with
  | false =>
    cases h
    refine ⟨⟨calls, ?_, hcount, hdeliver⟩, rfl, rfl⟩
    rw [if_neg Bool.false_ne_true, List.append_nil]
    exact hcalls
  | true =>
    obtain ⟨values, -, h⟩ := Fallible.bind_eq_ok.1 h
    have hfst : (calls ++ [(s.rowIndex, values)]).map Prod.fst =
        plan.selected matchRows ++ if true = true then [matchRows.length] else [] := by
      rw [List.map_append, hcalls, if_pos rfl, ← hindex]
      rfl
    have hlength : s.matchCount + 1 = (calls ++ [(s.rowIndex, values)]).length := by
      rw [hcount, List.length_append]
      rfl
    unfold callMatches at hdeliver ⊢
    cases honMatch : plan.onMatch with
    | none =>
      rw [honMatch] at h hdeliver
      cases h
      exact ⟨⟨_, hfst, hlength, hdeliver⟩, rfl, rfl⟩
    | some onMatch =>
      rw [honMatch] at h hdeliver
      dsimp only at h hdeliver
      cases hcall : onMatch s.ctx s.rowIndex values with
      | none =>
        rw [hcall] at h
        cases h
      | some ctx' =>
        rw [hcall] at h
        cases h
        refine ⟨⟨_, hfst, hlength, ?_⟩, rfl, rfl⟩
        dsimp only
        rw [List.foldlM_append, hdeliver]
        simp [hcall]

def dataRows (hasHeader : Bool) (rows : List Row) : List Row :=
  if hasHeader then rows.tail else rows

structure Scanned (plan : ScanPlan σ) (hasHeader : Bool) (ctx : σ) (found : List Row × Row)
    (s : FilterScan σ) : Prop where
  column : s.column = found.2.length
  hasField : s.hasField = !found.2.isEmpty
  skipHeader : s.skipHeader = (hasHeader && found.1.isEmpty)
  rowIndex : s.rowIndex = (dataRows hasHeader found.1).length
  kept : Kept found.2 plan.predicateColumns s.predicateFields
  reports : plan.Reports ctx (dataRows hasHeader found.1) s.matchCount s.ctx

variable {hasHeader : Bool}

theorem Scanned.init (plan : ScanPlan σ) (opts : Option Options) (ctx : σ) :
    Scanned plan (opts.any Options.hasHeader) ctx ([], []) (.init plan opts ctx) where
  column := rfl
  hasField := rfl
  skipHeader := (Bool.and_true _).symm
  rowIndex := by cases opts.any Options.hasHeader <;> rfl
  kept := Kept.none plan.predicates
  reports := ⟨[], by cases opts.any Options.hasHeader <;> rfl, rfl, by
    unfold callMatches
    cases plan.onMatch <;> rfl⟩

theorem Scanned.field (h : Scanned plan hasHeader ctx (rows, row) s) (field : ScanField) :
    Scanned plan hasHeader ctx (rows, row ++ [scanDecode field]) (s.field plan field) where
  column := by rw [List.length_append, ← h.column]; rfl
  hasField := by simp [FilterScan.field]
  skipHeader := h.skipHeader
  rowIndex := h.rowIndex
  kept := by
    unfold FilterScan.field
    dsimp only
    cases hkept : plan.hasSelectedColumns && s.column ≤ plan.maxSelectedColumn with
    | true =>
      rw [if_pos rfl]
      exact h.kept.keep h.column field
    | false =>
      rw [if_neg Bool.false_ne_true]
      refine h.kept.skip (fun hmem => ?_) _
      have hle := plan.le_maxSelectedColumn hmem
      rw [← show s.column = row.length from h.column] at hle
      have hselected : plan.hasSelectedColumns = true := by
        obtain ⟨predicate, hpredicate, -⟩ := List.mem_map.1 hmem
        have hne : plan.predicates ≠ [] := List.ne_nil_of_mem hpredicate
        simp [ScanPlan.hasSelectedColumns, hne]
      simp [hselected, hle] at hkept
  reports := h.reports

theorem dataRows_concat (hheader : (hasHeader && rows.isEmpty) = false) (row : Row) :
    dataRows hasHeader (rows ++ [row]) = dataRows hasHeader rows ++ [row] := by
  unfold dataRows
  cases hasHeader with
  | false => rfl
  | true =>
    cases rows with
    | nil => cases hheader
    | cons first rows => rfl

/-- The row that ends is the header, or it is reported if it is selected. -/
theorem Scanned.rowEnd (h : Scanned plan hasHeader ctx (rows, row) s)
    (hs : (if s.skipHeader then .ok { s with skipHeader := false }
      else do
        let s ← s.finalizeRow plan
        .ok { s with rowIndex := s.rowIndex + 1 }) = .ok s') :
    s'.skipHeader = false ∧ s'.rowIndex = (dataRows hasHeader (rows ++ [row])).length ∧
      plan.Reports ctx (dataRows hasHeader (rows ++ [row])) s'.matchCount s'.ctx := by
  have hskip := h.skipHeader
  have hindex := h.rowIndex
  have hreports := h.reports
  dsimp only at hskip hindex hreports
  cases hheader : hasHeader && rows.isEmpty with
  | true =>
    obtain ⟨rfl, hrows⟩ := (Bool.and_eq_true _ _).mp hheader
    obtain rfl := List.isEmpty_iff.1 hrows
    rw [hskip, hheader, if_pos rfl] at hs
    cases hs
    exact ⟨rfl, hindex, hreports⟩
  | false =>
    rw [hskip, hheader, if_neg Bool.false_ne_true] at hs
    obtain ⟨s₁, hfinalize, hs⟩ := Fallible.bind_eq_ok.1 hs
    cases hs
    obtain ⟨hreports', hindex', hskip'⟩ := finalizeRow_reports h.kept hindex hreports hfinalize
    rw [dataRows_concat hheader]
    refine ⟨hskip'.trans (hskip.trans hheader), ?_, hreports'⟩
    dsimp only
    rw [hindex', hindex, List.length_append]
    rfl

theorem Scanned.token {found : List Row × Row} {token : Token}
    (h : Scanned plan hasHeader ctx found s) (hs : s.token plan token = .ok s') :
    Scanned plan hasHeader ctx (parseToken found token) s' := by
  obtain ⟨rows, row⟩ := found
  cases token with
  | field value needsUnescape =>
    cases hs
    exact h.field ⟨value, needsUnescape⟩
  | comma =>
    cases hs
    exact h
  | newline =>
    have hfield := h.hasField
    dsimp only at hfield
    unfold FilterScan.token at hs
    unfold parseToken pushRow
    dsimp only at hs ⊢
    by_cases hrow : row = []
    · subst hrow
      rw [hfield] at hs
      cases hs
      exact h
    · have hne : (!row.isEmpty) = true := by simp [hrow]
      rw [hfield, if_pos hne] at hs
      unfold FilterScan.newline at hs
      obtain ⟨s₁, hend, hs⟩ := Fallible.bind_eq_ok.1 hs
      cases hs
      obtain ⟨hskip, hindex, hreports⟩ := h.rowEnd hend
      rw [if_neg hrow]
      refine ⟨rfl, rfl, ?_, hindex, Kept.none plan.predicates, hreports⟩
      dsimp only
      rw [hskip]
      simp

/-- A scan that succeeds has reported the rows of the document that its predicates select, in their
order and under their numbers. -/
theorem csvFilterScanOpts_reports {content : List Char} {opts : Option Options} {matchCount : ℕ}
    {ctx' : σ} (h : csvFilterScanOpts content opts plan ctx = .ok (matchCount, ctx')) :
    ∃ rows, parseTokens (Lexer.init content).budget (.init content) [] [] = .ok rows ∧
      plan.Reports ctx (dataRows (opts.any Options.hasHeader) rows) matchCount ctx' := by
  unfold csvFilterScanOpts at h
  obtain ⟨-, -, h⟩ := Fallible.bind_eq_ok.1 h
  obtain ⟨s, hs, h⟩ := Fallible.bind_eq_ok.1 h
  obtain ⟨s', hfinish, h⟩ := Fallible.bind_eq_ok.1 h
  cases h
  obtain ⟨⟨rows, row⟩, hparse, hscanned⟩ := readTokens_related
    (fun _ found token => .ok (parseToken found token)) id
    (fun hR hb => ⟨_, rfl, Scanned.token hR hb⟩) (Prod.ext rfl hs) (Scanned.init plan opts ctx)
  have hrows : parseTokens (Lexer.init content).budget (.init content) [] [] =
      .ok (pushRow rows row) := by
    rw [parseTokens_readTokens, hparse]
    rfl
  refine ⟨pushRow rows row, hrows, ?_⟩
  have hfield := hscanned.hasField
  have hskip := hscanned.skipHeader
  dsimp only at hfield hskip
  unfold FilterScan.finish at hfinish
  unfold pushRow
  by_cases hrow : row = []
  · rw [hfield, hrow] at hfinish
    cases hfinish
    rw [if_pos hrow]
    exact hscanned.reports
  · have hne : (!row.isEmpty) = true := by simp [hrow]
    rw [hfield, hskip, hne, Bool.true_and] at hfinish
    rw [if_neg hrow]
    cases hheader : opts.any Options.hasHeader && rows.isEmpty with
    | true =>
      rw [hheader] at hfinish
      cases hfinish
      obtain ⟨hopts, hnil⟩ := (Bool.and_eq_true _ _).mp hheader
      obtain rfl := List.isEmpty_iff.1 hnil
      have hreports := hscanned.reports
      rw [hopts] at hreports ⊢
      exact hreports
    | false =>
      rw [hheader] at hfinish
      rw [dataRows_concat hheader]
      exact (finalizeRow_reports hscanned.kept hscanned.rowIndex hscanned.reports hfinish).1

end Reports

end Csv
