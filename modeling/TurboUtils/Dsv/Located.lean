import TurboUtils.Csv.Iterator
import TurboUtils.Dsv.Ranges
import TurboUtils.Lib.Fallible

/-! What `dsv_index_build_internal` writes: an entry for each row of the iterator, with the place where
the iterator reads it. -/
namespace Dsv

open Csv (Lexer Lexed Token iterNext fieldText unescape)

/-! ## Fields -/

theorem fieldText_cons_cons {needsUnescape : Bool} {c d : Char} {after : List Char}
    (h : ¬(needsUnescape = true ∧ c = '"' ∧ d = '"')) :
    fieldText (c :: d :: after) needsUnescape = c :: fieldText (d :: after) needsUnescape := by
  cases needsUnescape with
  | false => rfl
  | true =>
    unfold fieldText
    rw [if_pos rfl, if_pos rfl, Csv.unescape_cons_cons fun hq => h ⟨rfl, hq⟩]

/-- The text of an index is that of the field. -/
theorem copyTextKey_eq {needsUnescape : Bool} {output : ℕ} {value text : List Char}
    (houtput : output ≤ maxTextKey) (h : copyTextKey needsUnescape output value = some text) :
    text = fieldText value needsUnescape ∧ output + text.length ≤ maxTextKey := by
  induction output, value using copyTextKey.induct needsUnescape generalizing text with
  | case1 =>
    cases h
    exact ⟨by cases needsUnescape <;> rfl, houtput⟩
  | case2 output c rest hfull =>
    rw [copyTextKey.eq_def] at h
    dsimp only at h
    rw [if_pos hfull] at h
    cases h
  | case3 output c hfull =>
    rw [copyTextKey.eq_def] at h
    dsimp only at h
    rw [if_neg hfull] at h
    cases h
    refine ⟨?_, by simpa using hfull⟩
    cases needsUnescape with
    | false => rfl
    | true => by_cases hc : c = '"' <;> simp [fieldText, unescape, hc]
  | case4 output c hfull d after hescape ih =>
    rw [copyTextKey.eq_def] at h
    dsimp only at h
    rw [if_neg hfull, if_pos hescape] at h
    obtain ⟨rest, hrest, rfl⟩ := Option.map_eq_some_iff.1 h
    obtain ⟨hunescape, rfl, rfl⟩ := hescape
    obtain ⟨rfl, hlength⟩ := ih (by omega) hrest
    refine ⟨?_, by rw [List.length_cons]; omega⟩
    simp [fieldText, unescape, hunescape]
  | case5 output c hfull d after hescape ih =>
    rw [copyTextKey.eq_def] at h
    dsimp only at h
    rw [if_neg hfull, if_neg hescape] at h
    obtain ⟨rest, hrest, rfl⟩ := Option.map_eq_some_iff.1 h
    obtain ⟨rfl, hlength⟩ := ih (by omega) hrest
    exact ⟨(fieldText_cons_cons hescape).symm, by rw [List.length_cons]; omega⟩

theorem readDigits_eq {mantissa digits result : ℕ} {text rest : List Char}
    (h : readDigits (2 ^ 64 - 1) mantissa text = some (result, digits, rest)) :
    foldDigits mantissa text = (result, digits, rest) := by
  induction text generalizing mantissa digits result rest with
  | nil =>
    cases h
    rfl
  | cons c text ih =>
    unfold readDigits at h
    unfold foldDigits
    by_cases hdigit : isDecimalDigit c = true
    · rw [if_pos hdigit] at h ⊢
      split_ifs at h with hlarge
      obtain ⟨⟨m, d, r⟩, hrest, heq⟩ := Option.map_eq_some_iff.1 h
      cases heq
      have hsmall : mantissa * 10 + digit c < 2 ^ 64 := by
        have hnine : digit c ≤ 9 := by
          unfold isDecimalDigit at hdigit
          rw [Bool.and_eq_true, decide_eq_true_eq, decide_eq_true_eq] at hdigit
          have hle : c.toNat ≤ '9'.toNat := hdigit.2
          have hval : '9'.toNat = '0'.toNat + 9 := rfl
          unfold digit
          omega
        omega
      rw [Nat.mod_eq_of_lt hsmall, ih hrest]
    · rw [if_neg hdigit] at h ⊢
      cases h
      rfl

/-- A number that the index accepts is read as the filter reads it. -/
theorem parseDouble_eq {text : List Char} {number : ℚ} (h : parseDouble text = some number) :
    fastAtof text = number := by
  unfold parseDouble at h
  unfold fastAtof
  dsimp only at h ⊢
  obtain ⟨⟨mantissa, digits, rest⟩, hwhole, h⟩ := Option.bind_eq_some_iff.1 h
  rw [readDigits_eq hwhole]
  dsimp only at h ⊢
  split at h
  next rest =>
    obtain ⟨⟨mantissa', fraction, rest'⟩, hfraction, h⟩ := Option.bind_eq_some_iff.1 h
    rw [readDigits_eq hfraction]
    dsimp only at h ⊢
    split_ifs at h
    cases h
    rfl
  next rest hpoint =>
    split_ifs at h with hrest
    cases h
    obtain ⟨-, rfl⟩ := not_or.1 hrest |>.imp_right not_not.1
    rfl

/-! ## Rows -/

/-- A row, and the bytes from where it is read up to where the next one is. -/
structure DataRow where
  fields : Csv.Row
  offset : ℕ
  length : ℕ

/-- The rows of `csv_iter_next` with their places. -/
def rowsFrom (len : ℕ) : ℕ → Lexer → List DataRow
  | 0, _ => []
  | fuel + 1, l =>
      match iterNext (l.budget + 1) l [] with
      | (l', some fields) =>
          let offset := len - l.rest.length
          ⟨fields, offset, len - l'.rest.length - offset⟩ :: rowsFrom len fuel l'
      | (_, none) => []

def locatedRows (content : List Char) : List DataRow :=
  rowsFrom content.length ((Lexer.init content).budget + 2) (.init content)

theorem map_fields_rowsFrom (len fuel : ℕ) (l : Lexer) :
    (rowsFrom len fuel l).map DataRow.fields = Csv.iterRows fuel l := by
  induction fuel generalizing l with
  | zero => rfl
  | succ fuel ih =>
    rw [rowsFrom, Csv.iterRows]
    cases iterNext (l.budget + 1) l [] with
    | mk l' found =>
      cases found with
      | none => rfl
      | some fields => exact congrArg (fields :: ·) (ih l')

variable (config : IndexConfig)

def DataRow.entry (row : DataRow) : Entry where
  textKey := row.fields.getD config.textColumn []
  numberKey := fastAtof (row.fields.getD config.numberColumn [])
  rowOffset := row.offset
  rowLength := row.length
  coveringInt64 := config.coveringInt64Column.bind fun column =>
    row.fields[column]?.bind parseInt64

variable {config}

/-- The row that is being built has the fields that were read. -/
structure Build.Reads (config : IndexConfig) (b : Build) (fields : Csv.Row) : Prop where
  column : b.column = fields.length
  hasField : b.hasField = true ↔ fields ≠ []
  text : b.skipHeader = false → b.row.text = fields[config.textColumn]?
  number : b.skipHeader = false → b.row.number = fields[config.numberColumn]?.map fastAtof
  cover : b.skipHeader = false → b.row.cover = config.coveringInt64Column.bind fun column =>
    fields[column]?.bind parseInt64

theorem getElem?_concat {α : Type} (rows : List α) (row : α) (i : ℕ) :
    (rows ++ [row])[i]? = if rows.length = i then some row else rows[i]? := by
  split_ifs with h
  · rw [← h, List.getElem?_concat_length]
  · rcases Nat.lt_or_gt_of_ne h with h | h
    · rw [List.getElem?_eq_none (by simpa using h), List.getElem?_eq_none h.le]
    · exact List.getElem?_append_left h

theorem RowBuilder.textField_ok {row row' : RowBuilder} {column : ℕ} {value : List Char}
    {needsUnescape : Bool} (h : row.textField config column value needsUnescape = .ok row') :
    row' = { row with
      text := if column = config.textColumn then some (fieldText value needsUnescape)
        else row.text } ∧
      (column = config.textColumn → (fieldText value needsUnescape).length ≤ maxTextKey) := by
  unfold textField at h
  by_cases hcolumn : column = config.textColumn
  · rw [if_pos hcolumn] at h ⊢
    cases hcopy : copyTextKey needsUnescape 0 value with
    | none =>
      rw [hcopy] at h
      cases h
    | some text =>
      rw [hcopy] at h
      cases h
      obtain ⟨rfl, hlength⟩ := copyTextKey_eq (Nat.zero_le _) hcopy
      exact ⟨rfl, fun _ => by rwa [Nat.zero_add] at hlength⟩
  · rw [if_neg hcolumn] at h ⊢
    cases h
    exact ⟨rfl, fun h => absurd h hcolumn⟩

theorem RowBuilder.numberField_ok {row row' : RowBuilder} {column : ℕ} {value : List Char}
    {needsUnescape : Bool} (h : row.numberField config column value needsUnescape = .ok row') :
    row' = { row with
      number := if column = config.numberColumn then
        some (fastAtof (fieldText value needsUnescape)) else row.number } := by
  unfold numberField at h
  by_cases hcolumn : column = config.numberColumn
  · rw [if_pos hcolumn] at h ⊢
    cases needsUnescape with
    | true => cases h
    | false =>
      rw [if_neg Bool.false_ne_true] at h
      cases hparse : parseDouble value with
      | none =>
        rw [hparse] at h
        cases h
      | some number =>
        rw [hparse] at h
        cases h
        rw [show fieldText value false = value from rfl, parseDouble_eq hparse]
  · rw [if_neg hcolumn] at h ⊢
    cases h
    rfl

theorem RowBuilder.coverField_ok {row row' : RowBuilder} {column : ℕ} {value : List Char}
    {needsUnescape : Bool} (h : row.coverField config column value needsUnescape = .ok row') :
    row' = { row with
      cover := if some column = config.coveringInt64Column then
        parseInt64 (fieldText value needsUnescape) else row.cover } := by
  unfold coverField at h
  by_cases hcolumn : some column = config.coveringInt64Column
  · rw [if_pos hcolumn] at h ⊢
    cases needsUnescape with
    | true => cases h
    | false =>
      rw [if_neg Bool.false_ne_true] at h
      cases hparse : parseInt64 value with
      | none =>
        rw [hparse] at h
        cases h
      | some cover =>
        rw [hparse] at h
        cases h
        rw [show fieldText value false = value from rfl, hparse]
  · rw [if_neg hcolumn] at h ⊢
    cases h
    rfl

theorem Build.Reads.field {b b' : Build} {fields : Csv.Row} {value : List Char}
    {needsUnescape : Bool} (hreads : b.Reads config fields)
    (h : b.field config value needsUnescape = .ok b') :
    b'.Reads config (fields ++ [fieldText value needsUnescape]) ∧ b'.entries = b.entries ∧
      b'.rowStart = b.rowStart ∧ b'.skipHeader = b.skipHeader := by
  obtain ⟨hcolumn, hfield, htext, hnumber, hcover⟩ := hreads
  unfold Build.field at h
  obtain ⟨row, hrow, rfl⟩ := Fallible.map_eq_ok.1 h
  refine ⟨?_, rfl, rfl, rfl⟩
  by_cases hskip : b.skipHeader = true
  · rw [if_pos hskip] at hrow
    cases hrow
    have hnot : b.skipHeader ≠ false := fun hfalse => Bool.false_ne_true (hfalse ▸ hskip)
    exact ⟨by simp [hcolumn], by simp, fun h => absurd h hnot, fun h => absurd h hnot,
      fun h => absurd h hnot⟩
  · rw [if_neg hskip] at hrow
    have hskip := Bool.eq_false_iff.2 hskip
    unfold RowBuilder.field at hrow
    obtain ⟨row₁, hrow₁, hrow⟩ := Fallible.bind_eq_ok.1 hrow
    obtain ⟨row₂, hrow₂, hrow⟩ := Fallible.bind_eq_ok.1 hrow
    obtain ⟨rfl, -⟩ := RowBuilder.textField_ok hrow₁
    cases RowBuilder.numberField_ok hrow₂
    cases RowBuilder.coverField_ok hrow
    refine ⟨by simp [hcolumn], by simp, fun _ => ?_, fun _ => ?_, fun _ => ?_⟩
    · dsimp only
      rw [getElem?_concat, ← htext hskip, hcolumn]
    · dsimp only
      rw [getElem?_concat, hnumber hskip, hcolumn, apply_ite (Option.map fastAtof)]
      rfl
    · dsimp only
      rw [hcover hskip, hcolumn]
      cases config.coveringInt64Column with
      | none => rfl
      | some column =>
        rw [Option.bind_some, Option.bind_some, getElem?_concat]
        by_cases heq : fields.length = column
        · rw [if_pos heq, if_pos (congrArg some heq), Option.bind_some]
        · rw [if_neg heq, if_neg fun h => heq (Option.some.inj h)]

/-- What is left of a row that is finished. -/
theorem Build.Reads.finishRow {b b' : Build} {fields : Csv.Row} {rowEnd : ℕ}
    (hreads : b.Reads config fields) (h : b.finishRow config rowEnd = .ok b') :
    b'.skipHeader = false ∧ b'.rowStart = b.rowStart ∧ b'.entries = b.entries ++
      if b.skipHeader then []
      else [DataRow.entry config ⟨fields, b.rowStart, rowEnd - b.rowStart⟩] := by
  obtain ⟨-, -, htext, hnumber, hcover⟩ := hreads
  unfold Build.finishRow at h
  by_cases hskip : b.skipHeader = true
  · rw [if_pos hskip] at h ⊢
    cases h
    exact ⟨rfl, rfl, (List.append_nil _).symm⟩
  · rw [if_neg hskip] at h ⊢
    have hskip := Bool.eq_false_iff.2 hskip
    cases htextField : b.row.text with
    | none =>
      rw [htextField] at h
      cases h
    | some text =>
      cases hnumberField : b.row.number with
      | none =>
        rw [htextField, hnumberField] at h
        cases h
      | some number =>
        rw [htextField, hnumberField] at h
        dsimp only at h
        split_ifs at h
        all_goals
          cases h
          refine ⟨hskip, rfl, ?_⟩
          rw [htext hskip] at htextField
          rw [hnumber hskip] at hnumberField
          obtain ⟨field, hfield, rfl⟩ := Option.map_eq_some_iff.1 hnumberField
          simp only [DataRow.entry, List.getD_eq_getElem?_getD, htextField, hfield, hcover hskip,
            Option.getD_some]

/-! ## The loop -/

def Build.fresh (entries : List Entry) (rowStart : ℕ) (skipHeader : Bool) : Build :=
  ⟨entries, ⟨none, none, none⟩, rowStart, 0, false, skipHeader⟩

theorem Build.reads_fresh (entries : List Entry) (rowStart : ℕ) (skipHeader : Bool) :
    (Build.fresh entries rowStart skipHeader).Reads config [] where
  column := rfl
  hasField := by simp [Build.fresh]
  text _ := rfl
  number _ := rfl
  cover _ := by cases config.coveringInt64Column <;> rfl

def Build.entriesAfter (config : IndexConfig) (len : ℕ) (b : Build) (fields : Csv.Row) (l : Lexer) :
    List Entry :=
  b.entries ++ if b.skipHeader then []
    else [DataRow.entry config ⟨fields, b.rowStart, len - l.rest.length - b.rowStart⟩]

/-- What a call of the iterator finds where an index is built. -/
inductive Build.Yields (config : IndexConfig) (len : ℕ) (result b : Build) (l : Lexer) :
    Lexer × Option Csv.Row → Prop
  | row {l' fields} (fuel : ℕ) (hbudget : l'.budget < l.budget) (hstate : l'.state = .rowStart)
      (hbuild : buildLoop config len fuel l' (.fresh (b.entriesAfter config len fields l')
        (len - l'.rest.length) false) = .ok result) : Yields config len result b l (l', some fields)
  | last {l' fields} (hrest : l'.rest = []) (hstate : l'.state = .rowStart)
      (hentries : result.entries = b.entriesAfter config len fields l') :
      Yields config len result b l (l', some fields)
  | none {l'} (hentries : result.entries = b.entries) : Yields config len result b l (l', none)

theorem Build.Yields.mono {len : ℕ} {result b b₁ : Build} {l l₁ : Lexer}
    {outcome : Lexer × Option Csv.Row} (h : Yields config len result b₁ l₁ outcome)
    (hentries : b₁.entries = b.entries) (hstart : b₁.rowStart = b.rowStart)
    (hskip : b₁.skipHeader = b.skipHeader) (hbudget : l₁.budget < l.budget) :
    Yields config len result b l outcome := by
  have hafter : ∀ fields l, b₁.entriesAfter config len fields l =
      b.entriesAfter config len fields l := by
    intro fields l
    rw [Build.entriesAfter, hentries, hstart, hskip, Build.entriesAfter]
  cases h with
  | row fuel hlt hstate hbuild => exact .row fuel (hlt.trans hbudget) hstate (hafter _ _ ▸ hbuild)
  | last hrest hstate hresult => exact .last hrest hstate (hafter _ _ ▸ hresult)
  | none hresult => exact .none (hresult.trans hentries)

theorem iterNext_builds {len fuel fuel' : ℕ} {l : Lexer} {b result : Build} {fields : Csv.Row}
    (hreads : b.Reads config fields) (h : buildLoop config len fuel l b = .ok result)
    (hstate : l.state = .rowStart ↔ fields = []) (hfuel : l.budget < fuel') :
    Build.Yields config len result b l (iterNext fuel' l fields) := by
  induction fuel generalizing l b fields fuel' with
  | zero => cases h
  | succ fuel ih =>
    obtain ⟨fuel', rfl⟩ : ∃ n, fuel' = n + 1 := ⟨fuel' - 1, by omega⟩
    rw [buildLoop] at h
    rw [iterNext]
    cases hnext : l.next with
    | mk l' lexed =>
      rw [hnext] at h
      cases lexed with
      | token token =>
        obtain ⟨hbudget, hcomma, hnewline⟩ := Csv.next_token hnext
        cases token with
        | field value needsUnescape =>
          obtain ⟨b', hfield, h⟩ := Fallible.bind_eq_ok.1 h
          obtain ⟨hreads', hentries, hstart, hskip⟩ := hreads.field hfield
          exact (ih hreads' h (by simp [hnewline]) (by omega)).mono hentries hstart hskip hbudget
        | comma =>
          have hfields : fields ≠ [] := fun hnil => hcomma rfl (hstate.2 hnil)
          dsimp only
          rw [if_neg hfields]
          exact (ih hreads h (by simp [hnewline, hfields]) (by omega)).mono rfl rfl rfl hbudget
        | newline =>
          have hrowStart : l'.state = .rowStart := hnewline.2 rfl
          dsimp only at h ⊢
          by_cases hfields : fields = []
          · rw [if_neg fun hfield => hreads.hasField.1 hfield hfields] at h
            rw [if_pos hfields]
            subst hfields
            exact (ih hreads h (by simp [hrowStart]) (by omega)).mono rfl rfl rfl hbudget
          · rw [if_pos (hreads.hasField.2 hfields)] at h
            rw [if_neg hfields]
            obtain ⟨b', hfinish, h⟩ := Fallible.bind_eq_ok.1 h
            obtain ⟨hskip, -, hentries⟩ := hreads.finishRow hfinish
            refine .row fuel hbudget hrowStart ?_
            rw [hskip, hentries] at h
            exact h
      | done =>
        obtain ⟨hrest, hrowStart⟩ := Csv.next_done hnext
        dsimp only at h ⊢
        by_cases hfields : fields = []
        · rw [if_neg fun hfield => hreads.hasField.1 hfield hfields] at h
          rw [if_pos hfields]
          cases h
          exact .none rfl
        · rw [if_pos (hreads.hasField.2 hfields)] at h
          rw [if_neg hfields]
          obtain ⟨-, -, hentries⟩ := hreads.finishRow h
          refine .last hrest hrowStart ?_
          rw [hentries, Build.entriesAfter, hrest]
          rfl
      | error message => cases h

def DataRow.Before (a b : DataRow) : Prop := a.offset < b.offset ∧ a.offset + a.length ≤ b.offset

theorem rowsFrom_end {l : Lexer} (hrest : l.rest = []) (hstate : l.state = .rowStart)
    (len fuel : ℕ) : rowsFrom len fuel l = [] := by
  obtain ⟨l', hnext⟩ := Csv.next_end hrest hstate
  cases fuel with
  | zero => rfl
  | succ fuel =>
    rw [rowsFrom, iterNext, hnext]
    rfl

/-- Where an index is built, every row of the iterator has its entry, and the rows lie one after the
other. -/
theorem rowsFrom_builds {len fuel fuel' : ℕ} {l : Lexer} {entries : List Entry}
    {skipHeader : Bool} {result : Build}
    (h : buildLoop config len fuel l (.fresh entries (len - l.rest.length) skipHeader) = .ok result)
    (hstate : l.state = .rowStart) (hlen : l.rest.length ≤ len) (hfuel : l.budget < fuel') :
    result.entries = entries ++ ((rowsFrom len fuel' l).drop (if skipHeader then 1 else 0)).map
        (DataRow.entry config) ∧
      (rowsFrom len fuel' l).Pairwise DataRow.Before ∧
        ∀ row ∈ rowsFrom len fuel' l, len - l.rest.length ≤ row.offset ∧
          row.offset + row.length ≤ len := by
  induction fuel' generalizing fuel l entries skipHeader with
  | zero => exact absurd hfuel (Nat.not_lt_zero _)
  | succ fuel' ih =>
    have hyields := iterNext_builds (Build.reads_fresh _ _ _) h (by simp [hstate])
      (Nat.lt_succ_self l.budget)
    rw [rowsFrom]
    cases hnext : iterNext (l.budget + 1) l [] with
    | mk l' found =>
      rw [hnext] at hyields
      cases hyields with
      | @row _ fields fuel hbudget hstart hbuild =>
        have hless : l'.rest.length < l.rest.length := by
          unfold Lexer.budget at hbudget
          rw [hstart, hstate] at hbudget
          simpa using hbudget
        obtain ⟨hentries, hpairwise, hplaces⟩ := ih hbuild hstart (by omega) (by omega)
        dsimp only
        refine ⟨?_, List.pairwise_cons.2 ⟨fun row hrow => ?_, hpairwise⟩,
          List.forall_mem_cons.2 ⟨⟨le_rfl, ?_⟩, fun row hrow => ?_⟩⟩
        · rw [hentries, Build.entriesAfter]
          cases skipHeader <;> simp [Build.fresh]
        · obtain ⟨hoffset, -⟩ := hplaces row hrow
          unfold DataRow.Before
          dsimp only
          omega
        · dsimp only
          omega
        · obtain ⟨hoffset, hend⟩ := hplaces row hrow
          omega
      | @last _ fields hrest hstart hentries =>
        dsimp only
        rw [rowsFrom_end hrest hstart]
        refine ⟨?_, List.pairwise_singleton _ _, List.forall_mem_singleton.2 ⟨le_rfl, ?_⟩⟩
        · rw [hentries, Build.entriesAfter]
          cases skipHeader <;> simp [Build.fresh]
        · dsimp only
          omega
      | none hentries =>
        refine ⟨?_, List.Pairwise.nil, nofun⟩
        rw [hentries]
        simp [Build.fresh]

structure Build.Short (b : Build) : Prop where
  row : ∀ text ∈ b.row.text, text.length ≤ maxTextKey
  entries : ∀ entry ∈ b.entries, entry.textKey.length ≤ maxTextKey

theorem Build.Short.field {b b' : Build} {value : List Char} {needsUnescape : Bool}
    (hshort : b.Short) (h : b.field config value needsUnescape = .ok b') : b'.Short := by
  unfold Build.field at h
  obtain ⟨row, hrow, rfl⟩ := Fallible.map_eq_ok.1 h
  refine ⟨fun text htext => ?_, hshort.entries⟩
  by_cases hskip : b.skipHeader = true
  · rw [if_pos hskip] at hrow
    cases hrow
    exact hshort.row text htext
  · rw [if_neg hskip] at hrow
    unfold RowBuilder.field at hrow
    obtain ⟨row₁, hrow₁, hrow⟩ := Fallible.bind_eq_ok.1 hrow
    obtain ⟨row₂, hrow₂, hrow⟩ := Fallible.bind_eq_ok.1 hrow
    obtain ⟨rfl, hlength⟩ := RowBuilder.textField_ok hrow₁
    cases RowBuilder.numberField_ok hrow₂
    cases RowBuilder.coverField_ok hrow
    dsimp only at htext
    split_ifs at htext with hcolumn
    · cases htext
      exact hlength hcolumn
    · exact hshort.row text htext

theorem Build.Short.finishRow {b b' : Build} {rowEnd : ℕ} (hshort : b.Short)
    (h : b.finishRow config rowEnd = .ok b') :
    ∀ entry ∈ b'.entries, entry.textKey.length ≤ maxTextKey := by
  unfold Build.finishRow at h
  by_cases hskip : b.skipHeader = true
  · rw [if_pos hskip] at h
    cases h
    exact hshort.entries
  · rw [if_neg hskip] at h
    split at h
    next text number htext _ =>
      split_ifs at h
      all_goals
        cases h
        intro entry hentry
        rcases List.mem_append.1 hentry with hentry | hentry
        · exact hshort.entries entry hentry
        · rw [List.mem_singleton.1 hentry]
          exact hshort.row text htext
    · cases h

theorem buildLoop_short {len fuel : ℕ} {l : Lexer} {b result : Build} (hshort : b.Short)
    (h : buildLoop config len fuel l b = .ok result) :
    ∀ entry ∈ result.entries, entry.textKey.length ≤ maxTextKey := by
  induction fuel generalizing l b with
  | zero => cases h
  | succ fuel ih =>
    rw [buildLoop] at h
    split at h
    · obtain ⟨b', hfield, h⟩ := Fallible.bind_eq_ok.1 h
      exact ih (hshort.field hfield) h
    · exact ih hshort h
    · split_ifs at h
      · obtain ⟨b', hfinish, h⟩ := Fallible.bind_eq_ok.1 h
        have hentries := hshort.finishRow hfinish
        refine ih (Build.Short.mk ?_ ?_) h
        · exact fun text htext => absurd htext (Option.not_mem_none text)
        · exact hentries
      · exact ih hshort h
    · split_ifs at h
      · exact hshort.finishRow h
      · cases h
        exact hshort.entries
    · cases h

/-! ## The sidecar -/

def dataRows (config : IndexConfig) (content : List Char) : List DataRow :=
  (locatedRows content).drop (if config.hasHeader then 1 else 0)

structure Index.Holds (config : IndexConfig) (content : List Char) (index : Index) : Prop where
  textColumn : index.textColumn = config.textColumn
  numberColumn : index.numberColumn = config.numberColumn
  sorted : index.entries.Pairwise fun a b => (entryCompare a b).isLE
  perm : index.entries.Perm ((dataRows config content).map (DataRow.entry config))
  before : (locatedRows content).Pairwise DataRow.Before
  within : ∀ row ∈ locatedRows content, row.offset + row.length ≤ content.length

theorem sortEntries_perm (qsort : Qsort entryCompare) (entries : List Entry) :
    (sortEntries qsort entries).Perm entries := by
  unfold sortEntries
  split_ifs
  · exact qsort.perm entries
  · exact .refl _

theorem sortEntries_pairwise (qsort : Qsort entryCompare) (entries : List Entry) :
    (sortEntries qsort entries).Pairwise fun a b => (entryCompare a b).isLE := by
  unfold sortEntries
  split_ifs with hcount
  · exact qsort.pairwise entries
  · match entries, hcount with
    | [], _ => exact .nil
    | [entry], _ => exact List.pairwise_singleton _ _
    | _ :: _ :: _, hcount => exact absurd (by simp) hcount

theorem buildInternal_holds {hash : List Char → ℕ} {qsort : Qsort entryCompare}
    {content : List Char} {sourceMtime : ℕ} {index : Index}
    (h : buildInternal config hash qsort content sourceMtime = .ok index) :
    index.Holds config content := by
  unfold buildInternal at h
  split_ifs at h
  obtain ⟨b, hloop, h⟩ := Fallible.bind_eq_ok.1 h
  have hstart : content.length - (Lexer.init content).rest.length = 0 := Nat.sub_self _
  have hfresh : buildLoop config content.length (Lexer.init content).budget (.init content)
      (.fresh [] (content.length - (Lexer.init content).rest.length) config.hasHeader) = .ok b := by
    rw [hstart]
    exact hloop
  obtain ⟨hentries, hbefore, hplaces⟩ := rowsFrom_builds hfresh rfl le_rfl
    (Nat.lt_add_of_pos_right Nat.two_pos)
  rw [List.nil_append] at hentries
  dsimp only at h
  split_ifs at h
  cases h
  exact ⟨rfl, rfl, sortEntries_pairwise qsort _, hentries ▸ sortEntries_perm qsort _, hbefore,
    fun row hrow => (hplaces row hrow).2⟩

theorem validateEntries_ok {sourceLength : ℕ} {last : Option Entry} {entries : List Entry}
    (hbounds : ∀ entry ∈ entries, entry.textKey.length ≤ maxTextKey ∧
      entry.rowOffset + entry.rowLength ≤ sourceLength)
    (hsorted : entries.Pairwise fun a b => (entryCompare a b).isLE)
    (hlast : ∀ a ∈ last, ∀ b ∈ entries, (entryCompare a b).isLE) :
    validateEntries sourceLength last entries = .ok () := by
  induction entries generalizing last with
  | nil => rfl
  | cons entry entries ih =>
    obtain ⟨⟨hshort, hend⟩, hbounds⟩ := List.forall_mem_cons.1 hbounds
    obtain ⟨hentry, hsorted⟩ := List.pairwise_cons.1 hsorted
    have hnot : ¬(last.any fun a => entryCompare a entry = .gt) = true := by
      cases last with
      | none => exact Bool.false_ne_true
      | some a =>
        have hle := hlast a rfl entry List.mem_cons_self
        simpa using Ordering.isLE_iff_ne_gt.1 hle
    rw [validateEntries, if_neg (by omega), if_neg hnot]
    exact ih hbounds hsorted fun a ha b hb => by
      cases ha
      exact hentry b hb

/-- An index that is built can be opened. -/
theorem openInternal_buildInternal {hash : List Char → ℕ} {qsort : Qsort entryCompare}
    {content : List Char} {sourceMtime : ℕ} {index : Index}
    (h : buildInternal config hash qsort content sourceMtime = .ok index) {expectedMtime : ℕ}
    (hmtime : expectedMtime = 0 ∨ expectedMtime = sourceMtime) :
    openInternal hash index content expectedMtime = .ok index := by
  obtain ⟨-, -, hsorted, hperm, -, hwithin⟩ := buildInternal_holds h
  unfold buildInternal at h
  split_ifs at h
  obtain ⟨b, hloop, h⟩ := Fallible.bind_eq_ok.1 h
  dsimp only at h
  split_ifs at h with hsize
  have hinit : (Build.init config).Short :=
    ⟨fun _ h => absurd h (Option.not_mem_none _), fun _ h => absurd h List.not_mem_nil⟩
  have hshort := buildLoop_short hinit hloop
  cases h
  have hbounds : ∀ entry ∈ sortEntries qsort b.entries, entry.textKey.length ≤ maxTextKey ∧
      entry.rowOffset + entry.rowLength ≤ content.length := by
    intro entry hentry
    refine ⟨hshort entry ((sortEntries_perm qsort _).mem_iff.1 hentry), ?_⟩
    obtain ⟨row, hrow, rfl⟩ := List.mem_map.1 (hperm.mem_iff.1 hentry)
    exact hwithin row (List.mem_of_mem_drop hrow)
  have hvalid : validateEntries content.length none (sortEntries qsort b.entries) = .ok () :=
    validateEntries_ok hbounds hsorted nofun
  unfold openInternal
  dsimp only at hvalid ⊢
  rw [if_neg (Bool.not_eq_false _ ▸ hsize), if_neg (not_not.2 rfl),
    if_neg fun h => hmtime.elim h.1 fun heq => h.2 heq.symm, if_neg fun h => h.2 rfl, hvalid]
  rfl

end Dsv
