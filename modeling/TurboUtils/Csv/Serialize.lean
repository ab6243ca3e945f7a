import TurboUtils.Csv.Iterator

/-! Writing a document back: what csv_parser.c serializes, and what it reads of that. -/
namespace Csv

/-- `SIZE_MAX`. -/
def sizeMax : ℕ := 2 ^ 64 - 1

/-- `csv_field_needs_quoting`. -/
def fieldNeedsQuoting (s : List Char) : Bool :=
  s.any fun c => c = ',' || c = '"' || c = '\n' || c = '\r'

/-- `csv_size_add`. -/
def sizeAdd (total amount : ℕ) : Option ℕ :=
  if sizeMax - total < amount then none else some (total + amount)

/-- `csv_field_quoted_len`. -/
def fieldQuotedLen (s : List Char) : Option ℕ :=
  s.foldlM (fun n c => sizeAdd n (if c = '"' then 2 else 1)) 2

/-- `csv_write_field`. -/
def writeField (s : List Char) (quote : Bool) : List Char :=
  if quote then '"' :: s.flatMap (fun c => if c = '"' then ['"', c] else [c]) ++ ['"'] else s

/-- The loop of `csv_row_serialized_len` from a column on. -/
def fieldsSerializedLen : ℕ → ℕ → Row → Option ℕ
  | _, total, [] => some total
  | col, total, s :: row => do
      let total ← (if 0 < col then sizeAdd total 1 else some total)
      let fieldLen ← (if fieldNeedsQuoting s then fieldQuotedLen s else some s.length)
      let total ← sizeAdd total fieldLen
      fieldsSerializedLen (col + 1) total row

/-- `csv_row_serialized_len`. -/
def rowSerializedLen (row : Row) : Option ℕ := do
  let total ← fieldsSerializedLen 0 0 row
  sizeAdd total 1

/-- The loop of `csv_row_write` from a column on. -/
def writeFields : ℕ → Row → List Char
  | _, [] => []
  | col, s :: row =>
      (if 0 < col then [','] else []) ++ writeField s (fieldNeedsQuoting s) ++
        writeFields (col + 1) row

/-- `csv_row_write`. -/
def rowWrite (row : Row) : List Char := writeFields 0 row ++ ['\n']

def Doc.records (doc : Doc) : List Row := doc.header.toList ++ doc.rows

/-- `csv_to_string_n`. -/
def csvToStringN (doc : Doc) : Option (List Char) := do
  let total ← doc.records.foldlM (fun total row => do sizeAdd total (← rowSerializedLen row)) 0
  if total = sizeMax then none else some (doc.records.flatMap rowWrite)

section Records

variable {σ : Type} (write : σ → List Char → σ × ℤ)

/-- The loop of `csv_write_records`, and what it returns. -/
def writeRows : σ → List Row → σ × ℤ
  | user, [] => (user, 0)
  | user, row :: rows =>
      match write user (rowWrite row) with
      | (user, code) => if code ≠ 0 then (user, -1) else writeRows user rows

/-- `csv_write_records`. -/
def csvWriteRecords (user : σ) (doc : Doc) : σ × ℤ :=
  match doc.records.foldlM (fun maxLen row => (rowSerializedLen row).map (max maxLen)) 0 with
  | none => (user, -1)
  | some maxLen => if maxLen = 0 then (user, 0) else writeRows write user doc.records

end Records

/-! ## Sizes -/

theorem sizeAdd_eq {total : ℕ} (htotal : total ≤ sizeMax) (amount : ℕ) :
    sizeAdd total amount = if total + amount ≤ sizeMax then some (total + amount) else none := by
  unfold sizeAdd
  split_ifs <;> first | rfl | omega

theorem foldlM_sizeAdd {α : Type} (size : α → ℕ) (xs : List α) {total : ℕ}
    (htotal : total ≤ sizeMax) : xs.foldlM (fun total x => sizeAdd total (size x)) total =
      if total + (xs.map size).sum ≤ sizeMax then some (total + (xs.map size).sum) else none := by
  induction xs generalizing total with
  | nil => simp [htotal]
  | cons x xs ih =>
    rw [List.foldlM_cons, sizeAdd_eq htotal, List.map_cons, List.sum_cons, ← Nat.add_assoc]
    by_cases hfits : total + size x ≤ sizeMax
    · rw [if_pos hfits]
      exact ih hfits
    · rw [if_neg hfits, if_neg (by omega)]
      rfl

def fieldLength (s : List Char) : ℕ :=
  if fieldNeedsQuoting s then 2 + s.length + s.count '"' else s.length

theorem length_escaped (s : List Char) :
    (s.flatMap fun c => if c = '"' then ['"', c] else [c]).length = s.length + s.count '"' := by
  induction s with
  | nil => rfl
  | cons c s ih =>
    rw [List.flatMap_cons, List.length_append, ih, List.length_cons, List.count_cons]
    by_cases hc : c = '"'
    · simp [hc]
      omega
    · simp [hc]
      omega

theorem length_writeField (s : List Char) :
    (writeField s (fieldNeedsQuoting s)).length = fieldLength s := by
  unfold writeField fieldLength
  split_ifs
  · simp only [List.cons_append, List.length_cons, List.length_append, length_escaped,
      List.length_nil]
    omega
  · rfl

theorem fieldQuotedLen_eq (s : List Char) : fieldQuotedLen s =
    if 2 + s.length + s.count '"' ≤ sizeMax then some (2 + s.length + s.count '"') else none := by
  have hsum : (s.map fun c => if c = '"' then 2 else 1).sum = s.length + s.count '"' := by
    induction s with
    | nil => rfl
    | cons c s ih =>
      rw [List.map_cons, List.sum_cons, ih, List.length_cons, List.count_cons]
      by_cases hc : c = '"'
      · simp [hc]
        omega
      · simp [hc]
        omega
  unfold fieldQuotedLen
  rw [foldlM_sizeAdd (fun c => if c = '"' then 2 else 1) s (by decide), hsum, ← Nat.add_assoc]

/-- The first pass over a row finds the length of what the second one writes. -/
theorem fieldsSerializedLen_eq (col : ℕ) {total : ℕ} (htotal : total ≤ sizeMax) (row : Row) :
    fieldsSerializedLen col total row = if total + (writeFields col row).length ≤ sizeMax then
      some (total + (writeFields col row).length) else none := by
  induction row generalizing col total with
  | nil =>
    rw [fieldsSerializedLen, writeFields, List.length_nil, Nat.add_zero, if_pos htotal]
  | cons s row ih =>
    have hcomma : (if 0 < col then sizeAdd total 1 else some total) =
        if total + (if 0 < col then [','] else []).length ≤ sizeMax then
          some (total + (if 0 < col then [','] else []).length) else none := by
      split_ifs <;> simp_all [sizeAdd_eq htotal]
    have hfield : (if fieldNeedsQuoting s then fieldQuotedLen s else some s.length) =
        if fieldNeedsQuoting s = true ∧ sizeMax < fieldLength s then none
          else some (fieldLength s) := by
      rw [fieldQuotedLen_eq]
      unfold fieldLength
      cases fieldNeedsQuoting s with
      | true =>
        simp only [if_true, true_and]
        split_ifs <;> first | rfl | omega
      | false => rfl
    rw [fieldsSerializedLen, hcomma, hfield, writeFields, List.length_append, List.length_append,
      length_writeField]
    generalize (if 0 < col then [','] else []).length = comma
    by_cases hseparated : total + comma ≤ sizeMax
    · rw [if_pos hseparated]
      by_cases hquoted : fieldNeedsQuoting s = true ∧ sizeMax < fieldLength s
      · rw [if_pos hquoted, if_neg (by omega)]
        rfl
      · rw [if_neg hquoted]
        simp only [Option.bind_eq_bind, Option.bind_some]
        rw [sizeAdd_eq hseparated]
        by_cases hfits : total + comma + fieldLength s ≤ sizeMax
        · rw [if_pos hfits, Option.bind_some, ih (col + 1) hfits]
          simp only [Nat.add_assoc]
        · rw [if_neg hfits, if_neg (by omega)]
          rfl
    · rw [if_neg hseparated]
      simp only [Option.bind_eq_bind, Option.bind_none]
      rw [if_neg (by omega)]

theorem rowSerializedLen_eq (row : Row) : rowSerializedLen row =
    if (rowWrite row).length ≤ sizeMax then some (rowWrite row).length else none := by
  rw [rowSerializedLen, fieldsSerializedLen_eq 0 (Nat.zero_le _), Nat.zero_add, rowWrite,
    List.length_append, List.length_singleton]
  by_cases hfields : (writeFields 0 row).length ≤ sizeMax
  · rw [if_pos hfields]
    exact sizeAdd_eq hfields 1
  · rw [if_neg hfields, if_neg (by omega)]
    rfl

/-- The bytes of a row in the text: its fields, a comma between them, and the line end. -/
def rowLength (row : Row) : ℕ := (row.map fieldLength).sum + (row.length - 1) + 1

theorem writeFields_succ (col : ℕ) (row : Row) : writeFields (col + 1) row =
    row.flatMap fun s => ',' :: writeField s (fieldNeedsQuoting s) := by
  induction row generalizing col with
  | nil => rfl
  | cons s row ih =>
    rw [writeFields, ih, if_pos col.succ_pos]
    rfl

theorem rowWrite_cons (s : List Char) (row : Row) : rowWrite (s :: row) =
    writeField s (fieldNeedsQuoting s) ++
      (row.flatMap fun s => ',' :: writeField s (fieldNeedsQuoting s)) ++ ['\n'] := by
  rw [rowWrite, writeFields, writeFields_succ]
  rfl

theorem length_rowWrite (row : Row) : (rowWrite row).length = rowLength row := by
  cases row with
  | nil => rfl
  | cons s row =>
    have hrest : (row.flatMap fun s => ',' :: writeField s (fieldNeedsQuoting s)).length =
        (row.map fieldLength).sum + row.length := by
      induction row with
      | nil => rfl
      | cons s row ih =>
        rw [List.flatMap_cons, List.length_append, ih, List.length_cons, length_writeField,
          List.map_cons, List.sum_cons, List.length_cons]
        omega
    rw [rowWrite_cons, List.length_append, List.length_append, hrest, length_writeField, rowLength,
      List.map_cons, List.sum_cons]
    simp only [List.length_cons, List.length_nil]
    omega

/-- The text is there unless it is too long. -/
theorem csvToStringN_eq (doc : Doc) : csvToStringN doc =
    if (doc.records.map rowLength).sum < sizeMax then some (doc.records.flatMap rowWrite)
    else none := by
  have hpass : ∀ (rows : List Row) {total : ℕ}, total ≤ sizeMax →
      rows.foldlM (fun total row => do sizeAdd total (← rowSerializedLen row)) total =
        if total + (rows.map rowLength).sum ≤ sizeMax then
          some (total + (rows.map rowLength).sum) else none := by
    intro rows
    induction rows with
    | nil =>
      intro total htotal
      simp [htotal]
    | cons row rows ih =>
      intro total htotal
      rw [List.foldlM_cons, rowSerializedLen_eq, length_rowWrite, List.map_cons, List.sum_cons,
        ← Nat.add_assoc]
      by_cases hrow : rowLength row ≤ sizeMax
      · rw [if_pos hrow]
        simp only [Option.bind_eq_bind, Option.bind_some]
        rw [sizeAdd_eq htotal]
        by_cases hfits : total + rowLength row ≤ sizeMax
        · rw [if_pos hfits]
          exact ih hfits
        · rw [if_neg hfits, if_neg (by omega)]
          rfl
      · rw [if_neg hrow, if_neg (by omega)]
        rfl
  rw [csvToStringN, hpass doc.records (Nat.zero_le _), Nat.zero_add]
  generalize (doc.records.map rowLength).sum = total
  by_cases hfits : total ≤ sizeMax
  · rw [if_pos hfits]
    simp only [Option.bind_eq_bind, Option.bind_some]
    by_cases hmax : total = sizeMax
    · rw [if_pos hmax, if_neg (by omega)]
    · rw [if_neg hmax, if_pos (by omega)]
  · rw [if_neg hfits, if_neg (by omega)]
    rfl

/-! ## Records -/

section Records

variable {σ : Type} (write : σ → List Char → σ × ℤ)

def deliver : σ → List (List Char) → σ × ℤ
  | user, [] => (user, 0)
  | user, chunk :: chunks =>
      match write user chunk with
      | (user, code) => if code ≠ 0 then (user, -1) else deliver user chunks

theorem writeRows_eq (user : σ) (rows : List Row) :
    writeRows write user rows = deliver write user (rows.map rowWrite) := by
  induction rows generalizing user with
  | nil => rfl
  | cons row rows ih => simp only [writeRows, List.map_cons, deliver, ih]

theorem longest_isSome (rows : List Row) (hrows : ∀ row ∈ rows, rowLength row ≤ sizeMax)
    (maxLen : ℕ) : ∃ longest,
      rows.foldlM (fun maxLen row => (rowSerializedLen row).map (max maxLen)) maxLen =
        some longest ∧ maxLen ≤ longest ∧ (rows ≠ [] → 0 < longest) := by
  induction rows generalizing maxLen with
  | nil => exact ⟨maxLen, rfl, le_refl _, fun h => absurd rfl h⟩
  | cons row rows ih =>
    obtain ⟨longest, hlongest, hle, -⟩ :=
      ih (fun row hrow => hrows row (List.mem_cons_of_mem _ hrow)) (max maxLen (rowLength row))
    have hrow : rowSerializedLen row = some (rowLength row) := by
      rw [rowSerializedLen_eq, length_rowWrite, if_pos (hrows row List.mem_cons_self)]
    have hpos : 0 < rowLength row := Nat.succ_pos _
    refine ⟨longest, ?_, by omega, fun _ => by omega⟩
    rw [List.foldlM_cons, hrow]
    exact hlongest

theorem csvWriteRecords_eq {doc : Doc} (hfits : (doc.records.map rowLength).sum < sizeMax)
    (user : σ) : csvWriteRecords write user doc = deliver write user (doc.records.map rowWrite) := by
  have hrows : ∀ row ∈ doc.records, rowLength row ≤ sizeMax := fun row hrow =>
    (List.le_sum_of_mem (List.mem_map_of_mem hrow)).trans hfits.le
  obtain ⟨longest, hlongest, -, hpos⟩ := longest_isSome doc.records hrows 0
  rw [csvWriteRecords, hlongest]
  dsimp only
  split_ifs with hzero
  · have hnil : doc.records = [] := by
      by_contra hne
      exact absurd (hpos hne) (by omega)
    rw [hnil]
    rfl
  · exact writeRows_eq write user doc.records

end Records

/-! ## What a document holds -/

/-- A row that a document can hold: it has fields, and no byte of them is zero. -/
structure Row.Held (row : Row) : Prop where
  fields : row ≠ []
  bytes : ∀ s ∈ row, '\x00' ∉ s

theorem nul_notMem_quoted {body value after : List Char} (h : quoted body = some (value, after)) :
    '\x00' ∉ value := by
  induction body using quoted.induct generalizing value with
  | case1 => cases h
  | case2 rest value' after' hrest ih =>
    simp only [quoted, if_true, hrest] at h
    cases h
    simp [ih hrest]
  | case3 rest hrest ih =>
    simp only [quoted, if_true, hrest] at h
    cases h
    exact List.not_mem_nil
  | case4 d rest hd =>
    simp only [quoted, if_true, if_neg hd] at h
    cases h
    exact List.not_mem_nil
  | case5 =>
    cases h
    exact List.not_mem_nil
  | case6 rest hc =>
    rw [quoted.eq_def] at h
    simp at h
  | case7 c rest hc hnul ih =>
    rw [quoted_cons hc hnul] at h
    obtain ⟨⟨value', after'⟩, hrest, heq⟩ := Option.map_eq_some_iff.1 h
    cases heq
    rw [List.mem_cons, not_or]
    exact ⟨Ne.symm hnul, ih hrest⟩

theorem unescape_subset (value : List Char) : unescape value ⊆ value := by
  induction value using unescape.induct with
  | case1 => simp [unescape]
  | case2 after ih =>
    simp only [unescape, if_true]
    exact List.cons_subset_cons _ (List.Subset.trans ih (List.subset_cons_self _ _))
  | case3 d after hd ih =>
    simp only [unescape, if_true, if_neg hd]
    exact List.cons_subset_cons _ ih
  | case4 => simp [unescape]
  | case5 c rest hc ih =>
    rw [unescape.eq_def]
    simp only [if_neg hc]
    exact List.cons_subset_cons _ ih

theorem nul_notMem_fieldText {value : List Char} (h : '\x00' ∉ value) (needsUnescape : Bool) :
    '\x00' ∉ fieldText value needsUnescape := by
  unfold fieldText
  split_ifs
  · exact fun hmem => h (unescape_subset value hmem)
  · exact h

theorem nul_notMem_next {l l' : Lexer} {value : List Char} {needsUnescape : Bool}
    (h : l.next = (l', .token (.field value needsUnescape))) : '\x00' ∉ value := by
  unfold Lexer.next Lexer.synthetic at h
  split_ifs at h with hcomma hstart hrest hstate
  · cases h
    exact List.not_mem_nil
  · cases h
    exact List.not_mem_nil
  · cases h
    exact List.not_mem_nil
  · cases h
  dsimp only at h
  split_ifs at h with hrun
  · cases h
    intro hmem
    have hordinary := List.mem_takeWhile_imp hmem
    exact absurd hordinary (by decide)
  · unfold Lexer.rules at h
    dsimp only at h
    split at h
    · cases h
    · cases h
    · cases h
    · cases h
    · split at h
      next value after hquoted =>
        cases h
        exact nul_notMem_quoted hquoted
      · cases h
    · cases h

theorem parseTokens_held {fuel : ℕ} {l : Lexer} {row : Row} {rows result : List Row}
    (h : parseTokens fuel l row rows = .ok result) (hrow : ∀ s ∈ row, '\x00' ∉ s)
    (hrows : ∀ row ∈ rows, row.Held) : ∀ row ∈ result, row.Held := by
  have hpush : ∀ {row : Row} {rows : List Row}, (∀ s ∈ row, '\x00' ∉ s) →
      (∀ row ∈ rows, row.Held) → ∀ row' ∈ pushRow rows row, row'.Held := by
    intro row rows hrow hrows row' hmem
    unfold pushRow at hmem
    split_ifs at hmem with hnil
    · exact hrows row' hmem
    · rcases List.mem_append.1 hmem with hmem | hmem
      · exact hrows row' hmem
      · rw [List.mem_singleton.1 hmem]
        exact ⟨hnil, hrow⟩
  induction fuel generalizing l row rows with
  | zero => cases h
  | succ fuel ih =>
    rw [parseTokens] at h
    cases hnext : l.next with
    | mk l' lexed =>
      rw [hnext] at h
      cases lexed with
      | token token =>
        cases token with
        | field value needsUnescape =>
          refine ih h (fun s hs => ?_) hrows
          rcases List.mem_append.1 hs with hs | hs
          · exact hrow s hs
          · rw [List.mem_singleton.1 hs]
            exact nul_notMem_fieldText (nul_notMem_next hnext) needsUnescape
        | comma => exact ih h hrow hrows
        | newline => exact ih h (fun s hs => absurd hs List.not_mem_nil) (hpush hrow hrows)
      | done =>
        cases h
        exact hpush hrow hrows
      | error message => cases h

/-! ## Reading what is written -/

theorem quoted_escaped {s : List Char} (hs : '\x00' ∉ s) {c : Char} (hc : c ≠ '"')
    (rest : List Char) :
    quoted ((s.flatMap fun c => if c = '"' then ['"', c] else [c]) ++ '"' :: c :: rest) =
      some (s.flatMap fun c => if c = '"' then ['"', c] else [c], c :: rest) := by
  induction s with
  | nil => simp [quoted, hc]
  | cons d s ih =>
    rw [List.mem_cons, not_or] at hs
    by_cases hd : d = '"'
    · subst hd
      simp [quoted, ih hs.2]
    · simp only [List.flatMap_cons, if_neg hd, List.cons_append, List.nil_append]
      rw [quoted_cons hd (Ne.symm hs.1), ih hs.2]
      rfl

theorem unescape_escaped (s : List Char) :
    unescape (s.flatMap fun c => if c = '"' then ['"', c] else [c]) = s := by
  induction s with
  | nil => rfl
  | cons c s ih =>
    by_cases hc : c = '"'
    · subst hc
      simp [unescape, ih]
    · rw [List.flatMap_cons, if_neg hc, List.singleton_append, unescape.eq_def]
      simp [hc, ih]

theorem isSpecial_of_not_quoted {s : List Char} (hquote : fieldNeedsQuoting s = false)
    (hs : '\x00' ∉ s) : ∀ c ∈ s, isSpecial c = false := by
  intro c hc
  have hordinary := List.any_eq_false.1 hquote c hc
  have hne : c ≠ '\x00' := fun heq => hs (heq ▸ hc)
  simp only [Bool.or_eq_true, decide_eq_true_eq, not_or] at hordinary
  simp [isSpecial, hordinary, hne]

theorem takeWhile_ordinary {run after : List Char} (hrun : ∀ c ∈ run, isSpecial c = false)
    (hafter : ∀ c ∈ after.head?, isSpecial c = true) :
    (run ++ after).takeWhile (fun c => !isSpecial c) = run := by
  rw [List.takeWhile_append_of_pos fun c hc => by simp [hrun c hc]]
  cases after with
  | nil => simp
  | cons c after => simp [hafter c rfl]

variable {fuel : ℕ} {l : Lexer} {acc : Row} {rest : List Char}

/-- The field that was written is the next token, except at the start of a row that ends there. -/
theorem next_writeField {s : List Char} (hs : '\x00' ∉ s) {c : Char} (hc : c = ',' ∨ c = '\n')
    (hrest : l.rest = writeField s (fieldNeedsQuoting s) ++ c :: rest)
    (hstate : l.state ≠ .afterField) (hempty : s = [] → l.state = .rowStart → c = ',') :
    ∃ l' value needsUnescape, l.next = (l', .token (.field value needsUnescape)) ∧
      fieldText value needsUnescape = s ∧ l'.rest = c :: rest ∧ l'.state = .afterField := by
  obtain ⟨_, line, column, state⟩ := l
  dsimp only at hrest hstate hempty
  subst hrest
  have hspecial : isSpecial c = true := by
    rcases hc with rfl | rfl <;> decide
  cases hquote : fieldNeedsQuoting s with
  | true =>
    have hne : c ≠ '"' := by
      rcases hc with rfl | rfl <;> decide
    simp only [writeField, if_true, List.cons_append, List.append_assoc, List.nil_append]
    rw [next_special (by decide) (fun _ => rfl) (fun _ => by decide)]
    obtain ⟨line', column', hrules⟩ := rules_quoted line column state (quoted_escaped hs hne rest)
    refine ⟨_, _, _, hrules, ?_, rfl, rfl⟩
    rw [fieldText_escaped, unescape_escaped]
  | false =>
    simp only [writeField, Bool.false_eq_true, if_false]
    have hordinary := isSpecial_of_not_quoted hquote hs
    cases s with
    | nil =>
      cases state with
      | afterField => exact absurd rfl hstate
      | rowStart =>
        rw [hempty rfl rfl]
        exact ⟨_, _, _, rfl, rfl, rfl, rfl⟩
      | afterComma =>
        rcases hc with rfl | rfl
        · exact ⟨_, _, _, rfl, rfl, rfl, rfl⟩
        · exact ⟨_, _, _, rfl, rfl, rfl, rfl⟩
    | cons d s =>
      obtain ⟨run, after, hsplit, -, hrun, hafter, hnext⟩ :=
        next_run (s ++ c :: rest) line column state (hordinary d List.mem_cons_self)
      have hsame : d :: s = run := by
        have hends : ∀ d ∈ (c :: rest).head?, isSpecial d = true := by simpa using hspecial
        rw [← takeWhile_ordinary hordinary hends, List.cons_append, hsplit,
          takeWhile_ordinary hrun hafter]
      subst hsame
      rw [← List.cons_append] at hsplit
      obtain rfl := List.append_cancel_left hsplit
      exact ⟨_, _, _, hnext, rfl, rfl, rfl⟩

theorem next_comma (hrest : l.rest = ',' :: rest) (hstate : l.state = .afterField) :
    ∃ l', l.next = (l', .token .comma) ∧ l'.rest = rest ∧ l'.state = .afterComma := by
  obtain ⟨_, line, column, _⟩ := l
  dsimp only at hrest hstate
  subst hrest hstate
  exact ⟨_, rfl, rfl, rfl⟩

theorem next_lineEnd (hrest : l.rest = '\n' :: rest) (hstate : l.state ≠ .afterComma) :
    ∃ l', l.next = (l', .token .newline) ∧ l'.rest = rest ∧ l'.state = .rowStart := by
  obtain ⟨_, line, column, state⟩ := l
  dsimp only at hrest hstate
  subst hrest
  cases state with
  | rowStart => exact ⟨_, rfl, rfl, rfl⟩
  | afterField => exact ⟨_, rfl, rfl, rfl⟩
  | afterComma => exact absurd rfl hstate

theorem Lexer.succ_of_budget (h : l.budget ≤ fuel) : ∃ n, fuel = n + 1 := by
  have hpos : 0 < l.budget := by
    unfold Lexer.budget
    split_ifs <;> omega
  exact ⟨fuel - 1, by omega⟩

/-- Where the fields of a row go on after one of them, the row is read to its end. -/
theorem parseTokens_fields (rows : List Row) {row : Row} (hbytes : ∀ s ∈ row, '\x00' ∉ s) (hacc : acc ≠ [])
    (hstate : l.state = .afterField) (hfuel : l.budget ≤ fuel)
    (hrest : l.rest = (row.flatMap fun s => ',' :: writeField s (fieldNeedsQuoting s)) ++
      '\n' :: rest) :
    ∃ fuel' l', l'.rest = rest ∧ l'.state = .rowStart ∧ l'.budget ≤ fuel' ∧
      parseTokens fuel l acc rows = parseTokens fuel' l' [] (rows ++ [acc ++ row]) := by
  induction row generalizing fuel l acc with
  | nil =>
    obtain ⟨fuel, rfl⟩ := Lexer.succ_of_budget hfuel
    obtain ⟨l', hnext, hrest', hstate'⟩ := next_lineEnd hrest (by rw [hstate]; simp)
    have hbudget := (next_token hnext).budget
    refine ⟨fuel, l', hrest', hstate', by omega, ?_⟩
    rw [parseTokens, hnext, List.append_nil]
    simp only [pushRow, if_neg hacc]
  | cons s row ih =>
    rw [List.flatMap_cons, List.cons_append, List.cons_append, List.append_assoc] at hrest
    -- what follows the field is the next comma or the end of the row
    obtain ⟨c, after, hafter, hc⟩ : ∃ c after,
        (row.flatMap fun s => ',' :: writeField s (fieldNeedsQuoting s)) ++ '\n' :: rest =
          c :: after ∧ (c = ',' ∨ c = '\n') := by
      cases row with
      | nil => exact ⟨_, _, rfl, .inr rfl⟩
      | cons s row => exact ⟨_, _, rfl, .inl rfl⟩
    rw [hafter] at hrest
    obtain ⟨fuel, rfl⟩ := Lexer.succ_of_budget hfuel
    obtain ⟨l₁, hcomma, hrest₁, hstate₁⟩ := next_comma hrest hstate
    have hfuel₁ : l₁.budget ≤ fuel := Nat.lt_succ_iff.1 ((next_token hcomma).budget.trans_le hfuel)
    obtain ⟨fuel, rfl⟩ := Lexer.succ_of_budget hfuel₁
    obtain ⟨l₂, value, needsUnescape, hfield, htext, hrest₂, hstate₂⟩ :=
      next_writeField (hbytes s List.mem_cons_self) hc hrest₁ (by rw [hstate₁]; simp)
        (fun _ hstart => by rw [hstate₁] at hstart; cases hstart)
    have hfuel₂ : l₂.budget ≤ fuel := Nat.lt_succ_iff.1 ((next_token hfield).budget.trans_le hfuel₁)
    rw [← hafter] at hrest₂
    have hacc₂ : acc ++ [s] ≠ [] := by simp
    obtain ⟨fuel', l', hrest', hstate', hfuel', hparse⟩ :=
      ih (fun s hs => hbytes s (List.mem_cons_of_mem _ hs)) hacc₂ hstate₂ hfuel₂ hrest₂
    refine ⟨fuel', l', hrest', hstate', hfuel', ?_⟩
    rw [parseTokens, hcomma]
    dsimp only
    rw [parseTokens, hfield]
    dsimp only
    rw [htext, hparse, List.append_assoc, List.singleton_append]

/-- A row that was written is read again, but for one that is a single empty field. -/
theorem parseTokens_rowWrite (rows : List Row) {row : Row} (hrow : row.Held)
    (hstate : l.state = .rowStart) (hfuel : l.budget ≤ fuel) (hrest : l.rest = rowWrite row ++ rest) :
    ∃ fuel' l', l'.rest = rest ∧ l'.state = .rowStart ∧ l'.budget ≤ fuel' ∧
      parseTokens fuel l [] rows =
        parseTokens fuel' l' [] (if row = [[]] then rows else rows ++ [row]) := by
  obtain ⟨fuel, rfl⟩ := Lexer.succ_of_budget hfuel
  by_cases hsingle : row = [[]]
  · subst hsingle
    obtain ⟨l', hnext, hrest', hstate'⟩ := next_lineEnd hrest (by rw [hstate]; simp)
    have hbudget := (next_token hnext).budget
    refine ⟨fuel, l', hrest', hstate', by omega, ?_⟩
    rw [parseTokens, hnext]
    rfl
  · obtain ⟨s, row, rfl⟩ := List.exists_cons_of_ne_nil hrow.fields
    rw [rowWrite_cons, List.append_assoc, List.append_assoc, List.singleton_append] at hrest
    obtain ⟨c, after, hafter, hc, hempty⟩ : ∃ c after,
        (row.flatMap fun s => ',' :: writeField s (fieldNeedsQuoting s)) ++ '\n' :: rest =
          c :: after ∧ (c = ',' ∨ c = '\n') ∧ (s = [] → c = ',') := by
      cases row with
      | nil => exact ⟨_, _, rfl, .inr rfl, fun hs => absurd (by rw [hs]) hsingle⟩
      | cons s row => exact ⟨_, _, rfl, .inl rfl, fun _ => rfl⟩
    rw [hafter] at hrest
    obtain ⟨l₁, value, needsUnescape, hfield, htext, hrest₁, hstate₁⟩ :=
      next_writeField (hrow.bytes s List.mem_cons_self) hc hrest (by rw [hstate]; simp)
        (fun hs _ => hempty hs)
    have hfuel₁ : l₁.budget ≤ fuel := Nat.lt_succ_iff.1 ((next_token hfield).budget.trans_le hfuel)
    rw [← hafter] at hrest₁
    obtain ⟨fuel', l', hrest', hstate', hfuel', hparse⟩ :=
      parseTokens_fields rows (fun s hs => hrow.bytes s (List.mem_cons_of_mem _ hs))
        (List.cons_ne_nil s []) hstate₁ hfuel₁ hrest₁
    refine ⟨fuel', l', hrest', hstate', hfuel', ?_⟩
    rw [parseTokens, hfield, if_neg hsingle]
    dsimp only
    rw [htext, List.nil_append, hparse, List.singleton_append]

theorem parseTokens_records (rows : List Row) {written : List Row} (hheld : ∀ row ∈ written, row.Held)
    (hstate : l.state = .rowStart) (hfuel : l.budget ≤ fuel)
    (hrest : l.rest = written.flatMap rowWrite) :
    parseTokens fuel l [] rows = .ok (rows ++ written.filter (· ≠ [[]])) := by
  induction written generalizing fuel l rows with
  | nil =>
    obtain ⟨fuel, rfl⟩ := Lexer.succ_of_budget hfuel
    obtain ⟨l', hnext⟩ := next_end hrest hstate
    rw [parseTokens, hnext, List.filter_nil, List.append_nil]
    rfl
  | cons row written ih =>
    rw [List.flatMap_cons] at hrest
    obtain ⟨fuel', l', hrest', hstate', hfuel', hparse⟩ :=
      parseTokens_rowWrite rows (hheld row List.mem_cons_self) hstate hfuel hrest
    rw [hparse, ih _ (fun row hrow => hheld row (List.mem_cons_of_mem _ hrow)) hstate' hfuel' hrest']
    by_cases hsingle : row = [[]]
    · simp [hsingle]
    · simp [hsingle]

/-! ## The round trip -/

theorem csvParse_held {content : List Char} {doc : Doc} (h : csvParse content = .ok doc) :
    doc.header = none ∧ ∀ row ∈ doc.rows, row.Held := by
  have hcontent : content ≠ [] := by
    rintro rfl
    cases h
  rw [csvParse_eq hcontent] at h
  cases hparse : parseTokens (Lexer.init content).budget (.init content) [] [] with
  | error message =>
    rw [hparse] at h
    cases h
  | ok rows =>
    rw [hparse] at h
    cases h
    exact ⟨rfl, parseTokens_held hparse nofun nofun⟩

theorem csvParse_written {written : List Row} (hne : written ≠ [])
    (hheld : ∀ row ∈ written, row.Held) :
    csvParse (written.flatMap rowWrite) = .ok ⟨none, written.filter (· ≠ [[]])⟩ := by
  have htext : written.flatMap rowWrite ≠ [] := by
    obtain ⟨row, written, rfl⟩ := List.exists_cons_of_ne_nil hne
    simp [rowWrite]
  rw [csvParse_eq htext, parseTokens_records [] hheld rfl le_rfl rfl]
  rfl

/-- The document is read again from its text, and its rows are written one by one. -/
structure RoundTrips (doc : Doc) : Prop where
  parsed : ∃ text, csvToStringN doc = some text ∧
    ∃ doc', csvParse text = .ok doc' ∧ doc'.rows = doc.rows
  records : ∀ text, csvToStringN doc = some text → (doc.records.map rowWrite).flatten = text ∧
    ∀ {σ : Type} (write : σ → List Char → σ × ℤ) (user : σ),
      csvWriteRecords write user doc = deliver write user (doc.records.map rowWrite)

/-- A document is read again from its text exactly when it has rows, none of them is a single empty
field, and its text has a size. -/
theorem roundTrips_iff {content : List Char} {doc : Doc} (h : csvParse content = .ok doc) :
    RoundTrips doc ↔
      doc.rows ≠ [] ∧ [[]] ∉ doc.rows ∧ (doc.rows.map rowLength).sum < sizeMax := by
  obtain ⟨hheader, hheld⟩ := csvParse_held h
  have hrecords : doc.records = doc.rows := by
    rw [Doc.records, hheader]
    rfl
  have heq : csvToStringN doc = if (doc.rows.map rowLength).sum < sizeMax then
      some (doc.rows.flatMap rowWrite) else none := by
    rw [csvToStringN_eq, hrecords]
  constructor
  · rintro ⟨⟨text, htext, doc', hparse, hrows⟩, -⟩
    rw [heq] at htext
    split_ifs at htext with hsize
    cases htext
    have hne : doc.rows ≠ [] := by
      intro hnil
      rw [hnil] at hparse
      cases hparse
    rw [csvParse_written hne hheld] at hparse
    cases hparse
    refine ⟨hne, fun hmem => ?_, hsize⟩
    rw [← hrows] at hmem
    exact absurd (List.of_mem_filter hmem) (by simp)
  · rintro ⟨hne, hsingle, hsize⟩
    rw [if_pos hsize] at heq
    have hkept : doc.rows.filter (· ≠ [[]]) = doc.rows :=
      List.filter_eq_self.2 fun row hrow => by simpa using ne_of_mem_of_not_mem hrow hsingle
    refine ⟨⟨_, heq, _, csvParse_written hne hheld, hkept⟩, fun text htext => ?_⟩
    rw [heq] at htext
    cases htext
    refine ⟨by rw [hrecords, List.flatMap_def], fun write user => ?_⟩
    exact csvWriteRecords_eq write (by rwa [hrecords]) user

theorem eq_ok_of_toOption {content : List Char} {doc : Doc}
    (h : (csvParse content).toOption = some doc) : csvParse content = .ok doc := by
  cases hparse : csvParse content with
  | error message =>
    rw [hparse] at h
    cases h
  | ok found =>
    rw [hparse] at h
    cases h
    rfl

theorem roundTrips_quoted :
    ∃ doc, csvParse "a,\"b\"\",\n\",\r\n,".toList = .ok doc ∧ RoundTrips doc := by
  have hparse : csvParse "a,\"b\"\",\n\",\r\n,".toList =
      .ok ⟨none, [["a".toList, "b\",\n".toList, []], [[], []]]⟩ :=
    eq_ok_of_toOption (by decide +kernel)
  exact ⟨_, hparse, (roundTrips_iff hparse).2 ⟨by decide, by decide, by decide +kernel⟩⟩

/-- A row that is one empty field is written as a line without bytes, which is not read. -/
theorem emptyField_lost : ∃ doc, csvParse "a\n\"\"\nb\n".toList = .ok doc ∧
    doc.rows = [["a".toList], [[]], ["b".toList]] ∧ csvToStringN doc = some "a\n\nb\n".toList ∧
      ¬RoundTrips doc := by
  have hparse : csvParse "a\n\"\"\nb\n".toList =
      .ok ⟨none, [["a".toList], [[]], ["b".toList]]⟩ := eq_ok_of_toOption (by decide +kernel)
  have htext : csvToStringN ⟨none, [["a".toList], [[]], ["b".toList]]⟩ =
      some "a\n\nb\n".toList := by decide +kernel
  refine ⟨_, hparse, rfl, htext, ?_⟩
  rintro ⟨⟨text, htext', doc', hparse', hrows⟩, -⟩
  rw [htext] at htext'
  cases htext'
  have hagain : csvParse "a\n\nb\n".toList = .ok ⟨none, [["a".toList], ["b".toList]]⟩ :=
    eq_ok_of_toOption (by decide +kernel)
  rw [hagain] at hparse'
  cases hparse'
  exact absurd hrows (by decide)

end Csv
