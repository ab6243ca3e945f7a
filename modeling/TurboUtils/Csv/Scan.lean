import TurboUtils.Csv.Lexer

/-! The readers of csv_parser.c that go byte by byte: the scanner of whole documents, and the parser
that is fed. -/
namespace Csv

/-- `csv_options_t`. -/
structure Options where
  hasHeader : Bool
  delimiter : Char
  quote : Char
  skipEmptyRows : Bool
  deriving DecidableEq, Repr

/-- `CSV_OPTIONS_DEFAULT`. -/
def Options.default : Options := ⟨false, ',', '"', true⟩

/-- `csv_normalize_opts`. -/
def Options.normalize : Option Options → Options
  | none => .default
  | some o =>
      { o with
        delimiter := if o.delimiter = '\x00' then ',' else o.delimiter
        quote := if o.quote = '\x00' then '"' else o.quote }

/-- `csv_opts_use_fast_lexer`. -/
def Options.useFastLexer (o : Options) : Bool :=
  o.delimiter = ',' && o.quote = '"' && o.skipEmptyRows

/-! ## The scanner -/

/-- The callbacks of `csv_scan_opts`, which get the row and the column or the number of fields, and
answer with their context unless they fail. -/
structure ScanCallbacks (σ : Type) where
  field : σ → ℕ → ℕ → List Char → Option σ
  rowEnd : σ → ℕ → ℕ → Option σ

/-- The variables of `csv_scan_opts`. -/
structure Scan (σ : Type) where
  field : List Char
  fieldStarted : Bool
  inQuote : Bool
  rowStarted : Bool
  row : ℕ
  col : ℕ
  ctx : σ

section Scan

variable {σ : Type}

def Scan.init (ctx : σ) : Scan σ := ⟨[], false, false, false, 0, 0, ctx⟩

variable (o : Options) (cb : ScanCallbacks σ)

/-- `csv_scan_emit_field`, and the column after it. -/
def Scan.emitField (s : Scan σ) : Option (Scan σ) :=
  (cb.field s.ctx s.row s.col s.field).map fun ctx =>
    { s with ctx := ctx, col := s.col + 1, field := [], fieldStarted := false }

def Scan.endRow (s : Scan σ) : Option (Scan σ) :=
  (if s.rowStarted || s.fieldStarted then s.emitField cb else some s).bind fun s =>
    (cb.rowEnd s.ctx s.row s.col).map fun ctx =>
      { s with ctx := ctx, row := s.row + 1 }

/-- What `csv_scan_opts` returns for a callback that has failed. -/
def orFail {α : Type} : Option α → Except String α
  | some a => .ok a
  | none => .error ""

/-- The loop of `csv_scan_opts`. -/
def scanLoop : List Char → Scan σ → Except String σ
  | [], s =>
      if s.inQuote then .error "Unterminated quoted field"
      else if s.rowStarted || s.fieldStarted then (orFail (s.endRow cb)).map Scan.ctx
      else .ok s.ctx
  | ch :: rest, s =>
      if s.inQuote then
        let s := { s with fieldStarted := true, rowStarted := true }
        if ch = o.quote then
          match rest with
          | next :: after =>
              if next = o.quote then scanLoop after { s with field := s.field ++ [o.quote] }
              else scanLoop (next :: after) { s with inQuote := false }
          | [] => scanLoop [] { s with inQuote := false }
        else scanLoop rest { s with field := s.field ++ [ch] }
      else if !s.fieldStarted && ch = o.quote then
        scanLoop rest { s with inQuote := true, fieldStarted := true, rowStarted := true }
      else if ch = o.delimiter then
        match s.emitField cb with
        | some s => scanLoop rest { s with rowStarted := true }
        | none => .error ""
      else if ch = '\r' || ch = '\n' then
        match (if s.rowStarted || s.fieldStarted || !o.skipEmptyRows then s.endRow cb
          else some s) with
        | none => .error ""
        | some s =>
            let s := { s with col := 0, field := [], fieldStarted := false, rowStarted := false }
            match rest with
            | next :: after =>
                if ch = '\r' && next = '\n' then scanLoop after s else scanLoop (next :: after) s
            | [] => scanLoop [] s
      else scanLoop rest { s with field := s.field ++ [ch], fieldStarted := true, rowStarted := true }

/-- `csv_scan_opts`. -/
def csvScanOpts (content : List Char) (opts : Option Options) (ctx : σ) : Except String σ :=
  scanLoop (.normalize opts) cb content (.init ctx)

end Scan

/-- `csv_dom_scan_ctx_t`: the rows of the document, and the one that is not there yet. -/
structure DomScan where
  rows : List Row
  currentRow : Option Row

/-- `csv_dom_scan_field` and `csv_dom_scan_row_end`. -/
def domScan : ScanCallbacks DomScan where
  field scan _ _ value := some { scan with currentRow := some (scan.currentRow.getD [] ++ [value]) }
  rowEnd scan _ _ := some ⟨scan.rows ++ [scan.currentRow.getD []], none⟩

def scanRows (content : List Char) (opts : Option Options) : Except String (List Row) :=
  (csvScanOpts domScan content opts ⟨[], none⟩).map DomScan.rows

structure Doc where
  header : Option Row
  rows : List Row
  deriving DecidableEq, Repr

/-- `csv_parse_opts`. -/
def csvParseOpts (content : List Char) (opts : Option Options) : Except String Doc :=
  let normalized := Options.normalize opts
  if content = [] then .error "Empty input"
  else
    let rows := if normalized.useFastLexer then
        parseTokens (Lexer.init content).budget (.init content) [] []
      else scanRows content (some normalized)
    rows.map fun rows =>
      if normalized.hasHeader then ⟨rows.head?, rows.tail⟩ else ⟨none, rows⟩

/-- `csv_parse`. -/
def csvParse (content : List Char) : Except String Doc := csvParseOpts content none

/-! ## The parser that is fed -/

/-- `csv_stream_handler_t`; a callback that is not there does nothing. -/
structure StreamHandler (σ : Type) where
  onRowStart : σ → ℕ → Option σ
  onField : σ → ℕ → ℕ → List Char → Option σ
  onRowEnd : σ → ℕ → ℕ → Option σ

/-- `csv_sax_parser_t`; a parser that has failed is no more. -/
structure Sax (σ : Type) where
  field : List Char
  row : ℕ
  col : ℕ
  inQuote : Bool
  quotePending : Bool
  fieldStarted : Bool
  rowStarted : Bool
  rowOpen : Bool
  skipLf : Bool
  finished : Bool
  ctx : σ

namespace Sax

variable {σ : Type}

/-- `csv_sax_parser_create`. -/
def create (ctx : σ) : Sax σ :=
  ⟨[], 0, 0, false, false, false, false, false, false, false, ctx⟩

variable (p : Sax σ) (o : Options) (handler : StreamHandler σ)

/-- `csv_sax_start_row`. -/
def startRow : Except String (Sax σ) :=
  if p.rowOpen then .ok p
  else match handler.onRowStart p.ctx p.row with
    | some ctx => .ok { p with rowOpen := true, ctx := ctx }
    | none => .error "CSV row callback failed"

/-- `csv_sax_emit_field`. -/
def emitField : Except String (Sax σ) :=
  (p.startRow handler).bind fun p =>
    match handler.onField p.ctx p.row p.col p.field with
    | some ctx => .ok { p with ctx := ctx, col := p.col + 1, field := [], fieldStarted := false }
    | none => .error "CSV field callback failed"

/-- `csv_sax_end_row`. -/
def endRow (hasField : Bool) : Except String (Sax σ) :=
  (if hasField then p.emitField handler else .ok p).bind fun p =>
    (p.startRow handler).bind fun p =>
      match handler.onRowEnd p.ctx p.row p.col with
      | some ctx =>
          .ok
            { p with
              ctx := ctx
              row := p.row + 1
              col := 0
              rowStarted := false
              rowOpen := false }
      | none => .error "CSV row callback failed"

def plain (ch : Char) : Except String (Sax σ) :=
  if !p.fieldStarted && ch = o.quote then
    .ok { p with inQuote := true, fieldStarted := true, rowStarted := true }
  else if ch = o.delimiter then
    (p.emitField handler).map fun p => { p with rowStarted := true }
  else if ch = '\r' || ch = '\n' then
    let hasField := p.rowStarted || p.fieldStarted
    (if hasField || !o.skipEmptyRows then p.endRow handler hasField else .ok p).map fun p =>
      if ch = '\r' then { p with skipLf := true } else p
  else .ok { p with field := p.field ++ [ch], fieldStarted := true, rowStarted := true }

/-- A round of the loop of `csv_sax_parser_feed`. -/
def step (ch : Char) : Except String (Sax σ) :=
  if p.skipLf && ch = '\n' then .ok { p with skipLf := false }
  else
    let p := { p with skipLf := false }
    if p.inQuote then
      if p.quotePending then
        if ch = o.quote then
          .ok
            { p with
              field := p.field ++ [o.quote]
              quotePending := false
              fieldStarted := true
              rowStarted := true }
        else { p with quotePending := false, inQuote := false }.plain o handler ch
      else if ch = o.quote then .ok { p with quotePending := true }
      else .ok { p with field := p.field ++ [ch], fieldStarted := true, rowStarted := true }
    else p.plain o handler ch

/-- `csv_sax_parser_feed`. -/
def feed (data : List Char) : Except String (Sax σ) :=
  if p.finished then .error "" else data.foldlM (fun p ch => p.step o handler ch) p

/-- `csv_sax_parser_finish`. -/
def finish : Except String (Sax σ) :=
  if p.finished then .error ""
  else
    let p := { p with finished := true }
    let p := if p.quotePending then { p with quotePending := false, inQuote := false } else p
    if p.inQuote then .error "Unterminated quoted field"
    else if p.rowStarted || p.fieldStarted then p.endRow handler true
    else .ok p

end Sax

/-- `csv_parse_stream_opts`: what has become of the context. -/
def csvParseStreamOpts {σ : Type} (content : List Char) (handler : StreamHandler σ) (ctx : σ)
    (opts : Option Options) : Except String σ :=
  let o := Options.normalize opts
  ((Sax.create ctx).feed o handler content).bind fun p => (p.finish handler).map Sax.ctx

/-- A handler that keeps the rows: those that have ended, and the one that has started. -/
def keepRows : StreamHandler (List Row × Row) where
  onRowStart rows _ := some (rows.1, [])
  onField rows _ _ value := some (rows.1, rows.2 ++ [value])
  onRowEnd rows _ _ := some (rows.1 ++ [rows.2], [])

def streamRows (content : List Char) (opts : Option Options) : Except String (List Row) :=
  (csvParseStreamOpts content keepRows ([], []) opts).map Prod.fst

/-! What the scanner reports, as a list of calls, and the callbacks that succeed. -/

/-- A call of `csv_scan_field_cb` or of `csv_scan_row_end_cb`. -/
inductive ScanEvent where
  | field (row col : ℕ) (value : List Char)
  | rowEnd (row fields : ℕ)
  deriving DecidableEq, Repr

/-- A call of one of the callbacks of `csv_stream_handler_t`. -/
inductive Event where
  | rowStart (row : ℕ)
  | field (row col : ℕ) (value : List Char)
  | rowEnd (row fields : ℕ)
  deriving DecidableEq, Repr

section Callbacks

variable {σ : Type}

def scanTo (f : σ → ScanEvent → σ) : ScanCallbacks σ where
  field ctx row col value := some (f ctx (.field row col value))
  rowEnd ctx row fields := some (f ctx (.rowEnd row fields))

def deliverTo (f : σ → Event → σ) : StreamHandler σ where
  onRowStart ctx row := some (f ctx (.rowStart row))
  onField ctx row col value := some (f ctx (.field row col value))
  onRowEnd ctx row fields := some (f ctx (.rowEnd row fields))

end Callbacks

/-! ## The calls of the scanner -/

def Scan.rowEvents {σ : Type} (s : Scan σ) : List ScanEvent :=
  if s.rowStarted || s.fieldStarted then
    [.field s.row s.col s.field, .rowEnd s.row (s.col + 1)]
  else [.rowEnd s.row s.col]

/-- The calls of `csv_scan_opts` with callbacks that succeed, and what it returns. -/
def scanEvents (o : Options) : List Char → Scan Unit → List ScanEvent × Except String Unit
  | [], s =>
      if s.inQuote then ([], .error "Unterminated quoted field")
      else if s.rowStarted || s.fieldStarted then (s.rowEvents, .ok ())
      else ([], .ok ())
  | ch :: rest, s =>
      if s.inQuote then
        let s := { s with fieldStarted := true, rowStarted := true }
        if ch = o.quote then
          match rest with
          | next :: after =>
              if next = o.quote then scanEvents o after { s with field := s.field ++ [o.quote] }
              else scanEvents o (next :: after) { s with inQuote := false }
          | [] => scanEvents o [] { s with inQuote := false }
        else scanEvents o rest { s with field := s.field ++ [ch] }
      else if !s.fieldStarted && ch = o.quote then
        scanEvents o rest { s with inQuote := true, fieldStarted := true, rowStarted := true }
      else if ch = o.delimiter then
        let report := scanEvents o rest
          { s with col := s.col + 1, field := [], fieldStarted := false, rowStarted := true }
        (.field s.row s.col s.field :: report.1, report.2)
      else if ch = '\r' || ch = '\n' then
        let ends := s.rowStarted || s.fieldStarted || !o.skipEmptyRows
        let next : Scan Unit :=
          ⟨[], false, s.inQuote, false, if ends then s.row + 1 else s.row, 0, ()⟩
        let report :=
          match rest with
          | lf :: after =>
              if ch = '\r' && lf = '\n' then scanEvents o after next
              else scanEvents o (lf :: after) next
          | [] => scanEvents o [] next
        ((if ends then s.rowEvents else []) ++ report.1, report.2)
      else scanEvents o rest { s with field := s.field ++ [ch], fieldStarted := true, rowStarted := true }

def scanReport (content : List Char) (opts : Option Options) :
    List ScanEvent × Except String Unit :=
  scanEvents (.normalize opts) content (.init ())

section Loop

variable {σ : Type} (o : Options) (f : σ → ScanEvent → σ)

def Scan.bare (s : Scan σ) : Scan Unit :=
  ⟨s.field, s.fieldStarted, s.inQuote, s.rowStarted, s.row, s.col, ()⟩

def called (ctx : σ) (report : List ScanEvent × Except String Unit) : Except String σ :=
  report.2.map fun _ => report.1.foldl f ctx

theorem called_append (ctx : σ) (events : List ScanEvent)
    (report : List ScanEvent × Except String Unit) :
    called f ctx (events ++ report.1, report.2) = called f (events.foldl f ctx) report := by
  rw [called, called, List.foldl_append]

theorem endRow_scanTo (s : Scan σ) : s.endRow (scanTo f) = some
    { s with
      field := if s.rowStarted || s.fieldStarted then [] else s.field
      fieldStarted := false
      col := if s.rowStarted || s.fieldStarted then s.col + 1 else s.col
      row := s.row + 1
      ctx := s.rowEvents.foldl f s.ctx } := by
  obtain ⟨field, fieldStarted, inQuote, rowStarted, row, col, ctx⟩ := s
  cases rowStarted <;> cases fieldStarted <;> rfl

/-- What follows the byte that ends a row. -/
theorem afterNewline_scanTo (ch : Char) {rest : List Char} :
    (∀ s, scanLoop o (scanTo f) rest s = called f s.ctx (scanEvents o rest s.bare)) →
    (∀ s, scanLoop o (scanTo f) rest.tail s =
      called f s.ctx (scanEvents o rest.tail s.bare)) → ∀ s : Scan σ,
    (match rest with
      | next :: after =>
          if ch = '\r' && next = '\n' then scanLoop o (scanTo f) after s
          else scanLoop o (scanTo f) (next :: after) s
      | [] => scanLoop o (scanTo f) [] s) =
      called f s.ctx (match rest with
        | lf :: after =>
            if ch = '\r' && lf = '\n' then scanEvents o after s.bare
            else scanEvents o (lf :: after) s.bare
        | [] => scanEvents o [] s.bare) := by
  intro hrest hafter s
  cases rest with
  | nil => exact hrest s
  | cons next after =>
    dsimp only
    split_ifs
    · exact hafter s
    · exact hrest s

/-- The loop of the scanner makes the calls of the list. -/
theorem scanLoop_scanTo (rest : List Char) (s : Scan σ) :
    scanLoop o (scanTo f) rest s = called f s.ctx (scanEvents o rest s.bare) := by
  induction hlen : rest.length using Nat.strong_induction_on generalizing rest s with
  | _ n ih =>
    subst hlen
    cases rest with
    | nil =>
      obtain ⟨field, fieldStarted, inQuote, rowStarted, row, col, ctx⟩ := s
      cases inQuote <;> cases rowStarted <;> cases fieldStarted <;> rfl
    | cons ch rest =>
      have hrest := ih rest.length (Nat.lt_succ_self _) rest
      rw [scanLoop.eq_def, scanEvents.eq_def]
      dsimp only [Scan.bare]
      by_cases hquote : s.inQuote = true
      · rw [if_pos hquote, if_pos hquote]
        by_cases hch : ch = o.quote
        · rw [if_pos hch, if_pos hch]
          cases rest with
          | nil => exact hrest _ rfl
          | cons next after =>
            dsimp only
            split_ifs
            · exact ih after.length (by simp) after _ rfl
            · exact hrest _ rfl
        · rw [if_neg hch, if_neg hch]
          exact hrest _ rfl
      · rw [if_neg hquote, if_neg hquote]
        by_cases hopen : (!s.fieldStarted && decide (ch = o.quote)) = true
        · rw [if_pos hopen, if_pos hopen]
          exact hrest _ rfl
        · rw [if_neg hopen, if_neg hopen]
          by_cases hdelimiter : ch = o.delimiter
          · rw [if_pos hdelimiter, if_pos hdelimiter]
            exact hrest _ rfl
          · rw [if_neg hdelimiter, if_neg hdelimiter]
            by_cases hnewline : (decide (ch = '\r') || decide (ch = '\n')) = true
            · rw [if_pos hnewline, if_pos hnewline, called_append]
              by_cases hends : (s.rowStarted || s.fieldStarted || !o.skipEmptyRows) = true
              · simp only [if_pos hends, endRow_scanTo]
                exact afterNewline_scanTo o f ch (fun s => hrest s rfl)
                  (fun s => ih rest.tail.length (by simp) rest.tail s rfl) _
              · simp only [if_neg hends]
                exact afterNewline_scanTo o f ch (fun s => hrest s rfl)
                  (fun s => ih rest.tail.length (by simp) rest.tail s rfl) _
            · rw [if_neg hnewline, if_neg hnewline]
              exact hrest _ rfl

end Loop

end Csv
