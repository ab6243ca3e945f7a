import TurboUtils.Csv.Scan
import TurboUtils.Lib.Fallible

/-! The parser that is fed reports what the scanner reports, with the starts of the rows, however the
bytes are cut. -/
namespace Csv
open Fallible

def withStarts : Bool → List ScanEvent → List Event
  | _, [] => []
  | rowOpen, .field row col value :: events =>
      (if rowOpen then [] else [.rowStart row]) ++ .field row col value :: withStarts true events
  | rowOpen, .rowEnd row fields :: events =>
      (if rowOpen then [] else [.rowStart row]) ++ .rowEnd row fields :: withStarts false events

section Report

variable {σ : Type} (o : Options) (handler : StreamHandler σ)

/-- What is left of a parser when `csv_sax_parser_finish` has returned: its context, and what has
been returned. It fails before its callbacks are called. -/
def Sax.report (p : Sax σ) : σ × Except String Unit :=
  match p.finish handler with
  | .ok p => (p.ctx, .ok ())
  | .error message => (p.ctx, .error message)

def feedPieces (pieces : List (List Char)) (opts : Option Options) (ctx : σ) :
    Except String (σ × Except String Unit) :=
  (pieces.foldlM (fun (p : Sax σ) piece => p.feed (.normalize opts) handler piece)
    (.create ctx)).map (Sax.report handler)

def feedRest (rest : List Char) (p : Sax σ) : Except String (σ × Except String Unit) :=
  (rest.foldlM (fun (p : Sax σ) ch => p.step o handler ch) p).map (Sax.report handler)

theorem feedRest_cons (ch : Char) (rest : List Char) (p : Sax σ) :
    feedRest o handler (ch :: rest) p = (p.step o handler ch).bind (feedRest o handler rest) := by
  unfold feedRest
  rw [List.foldlM_cons]
  cases p.step o handler ch with
  | error message => rfl
  | ok p => rfl

end Report

def Scan.toSax {σ : Type} (s : Scan Unit) (rowOpen : Bool) (ctx : σ) : Sax σ :=
  ⟨s.field, s.row, s.col, s.inQuote, false, s.fieldStarted, s.rowStarted, rowOpen, false, false, ctx⟩

/-- Nothing is there that has not started, and quotes only open a field. -/
structure Scan.Sound {σ : Type} (s : Scan σ) : Prop where
  field : s.fieldStarted = false → s.field = []
  row : s.rowStarted = false → s.fieldStarted = false ∧ s.col = 0
  quote : s.inQuote = true → s.fieldStarted = true ∧ s.rowStarted = true

section Simulation

variable {σ : Type} (o : Options) (f : σ → Event → σ)

def delivered (rowOpen : Bool) (ctx : σ) (report : List ScanEvent × Except String Unit) :
    σ × Except String Unit :=
  ((withStarts rowOpen report.1).foldl f ctx, report.2)

theorem delivered_field (rowOpen : Bool) (ctx : σ) (row col : ℕ) (value : List Char)
    (report : List ScanEvent × Except String Unit) :
    delivered f rowOpen ctx (.field row col value :: report.1, report.2) =
      delivered f true ((withStarts rowOpen [.field row col value]).foldl f ctx) report := by
  cases rowOpen <;> rfl

theorem delivered_row (rowOpen : Bool) (ctx : σ) (s : Scan Unit)
    (report : List ScanEvent × Except String Unit) :
    delivered f rowOpen ctx (s.rowEvents ++ report.1, report.2) =
      delivered f false ((withStarts rowOpen s.rowEvents).foldl f ctx) report := by
  unfold Scan.rowEvents
  split_ifs <;> cases rowOpen <;> rfl

theorem emitField_toSax (s : Scan Unit) (rowOpen : Bool) (ctx : σ) :
    (s.toSax rowOpen ctx).emitField (deliverTo f) =
      .ok (Scan.toSax { s with col := s.col + 1, field := [], fieldStarted := false } true
        ((withStarts rowOpen [.field s.row s.col s.field]).foldl f ctx)) := by
  cases rowOpen <;> rfl

theorem endRow_toSax {s : Scan Unit} (hsound : s.Sound) (rowOpen : Bool) (ctx : σ) :
    (s.toSax rowOpen ctx).endRow (deliverTo f) (s.rowStarted || s.fieldStarted) =
      .ok (Scan.toSax ⟨[], false, s.inQuote, false, s.row + 1, 0, ()⟩ false
        ((withStarts rowOpen s.rowEvents).foldl f ctx)) := by
  obtain ⟨field, fieldStarted, inQuote, rowStarted, row, col, _⟩ := s
  have hfield := hsound.field
  cases rowStarted <;> cases fieldStarted
  · obtain rfl : field = [] := hfield rfl
    cases rowOpen <;> rfl
  all_goals cases rowOpen <;> rfl

/-! ## Bytes that wait for the next one -/

theorem feedRest_pending {s : Scan Unit} (hquote : s.inQuote = true) (rowOpen : Bool) (ctx : σ)
    {rest : List Char} (hrest : rest.head? ≠ some o.quote) :
    feedRest o (deliverTo f) rest { s.toSax rowOpen ctx with quotePending := true } =
      feedRest o (deliverTo f) rest (Scan.toSax { s with inQuote := false } rowOpen ctx) := by
  cases rest with
  | nil =>
    obtain ⟨field, fieldStarted, inQuote, rowStarted, row, col, _⟩ := s
    cases rowStarted <;> cases fieldStarted <;> cases rowOpen <;> rfl
  | cons ch rest =>
    rw [feedRest_cons, feedRest_cons]
    have hne : ch ≠ o.quote := fun heq => hrest (congrArg some heq)
    simp [Sax.step, Scan.toSax, hquote, hne]

/-- The line feed after a carriage return is skipped. -/
theorem feedRest_skipLf (s : Scan Unit) (rowOpen : Bool) (ctx : σ) (rest : List Char) :
    feedRest o (deliverTo f) rest { s.toSax rowOpen ctx with skipLf := true } =
      feedRest o (deliverTo f) (if rest.head? = some '\n' then rest.tail else rest)
        (s.toSax rowOpen ctx) := by
  cases rest with
  | nil =>
    obtain ⟨field, fieldStarted, inQuote, rowStarted, row, col, _⟩ := s
    cases inQuote <;> cases rowStarted <;> cases fieldStarted <;> cases rowOpen <;> rfl
  | cons ch rest =>
    rw [feedRest_cons]
    by_cases hlf : ch = '\n'
    · subst hlf
      simp [Sax.step, Scan.toSax, Except.bind]
    · have hhead : (ch :: rest).head? ≠ some '\n' := fun heq => hlf (Option.some_inj.1 heq)
      rw [if_neg hhead, feedRest_cons]
      simp [Sax.step, Scan.toSax, hlf]

/-! ## The simulation -/

theorem feedRest_nil (s : Scan Unit) (rowOpen : Bool) (ctx : σ) :
    feedRest o (deliverTo f) [] (s.toSax rowOpen ctx) =
      .ok (delivered f rowOpen ctx (scanEvents o [] s)) := by
  obtain ⟨field, fieldStarted, inQuote, rowStarted, row, col, _⟩ := s
  cases inQuote <;> cases rowStarted <;> cases fieldStarted <;> cases rowOpen <;> rfl

/-- The scanner and the parser agree on some bytes from everywhere. -/
def Agrees (rest : List Char) : Prop :=
  ∀ (s : Scan Unit) (rowOpen : Bool) (ctx : σ), s.Sound →
    feedRest o (deliverTo f) rest (s.toSax rowOpen ctx) =
      .ok (delivered f rowOpen ctx (scanEvents o rest s))

variable {o f} {ch : Char} {rest : List Char} {s : Scan Unit}

/-- A byte in quotes. -/
theorem feedRest_quoted (hsound : s.Sound) (hquote : s.inQuote = true) (rowOpen : Bool) (ctx : σ)
    (hrest : Agrees o f rest) (hafter : Agrees o f rest.tail) :
    feedRest o (deliverTo f) (ch :: rest) (s.toSax rowOpen ctx) =
      .ok (delivered f rowOpen ctx (scanEvents o (ch :: rest) s)) := by
  obtain ⟨hfield, hrow⟩ := hsound.quote hquote
  obtain ⟨field, fieldStarted, inQuote, rowStarted, row, col, _⟩ := s
  dsimp only at hfield hrow hquote
  subst hfield hrow hquote
  rw [feedRest_cons, scanEvents.eq_def]
  dsimp only
  rw [if_pos rfl]
  by_cases hch : ch = o.quote
  · rw [if_pos hch]
    have hstep : (Scan.toSax ⟨field, true, true, true, row, col, ()⟩ rowOpen ctx).step o
        (deliverTo f) ch = .ok { Scan.toSax ⟨field, true, true, true, row, col, ()⟩ rowOpen ctx with
          quotePending := true } := by
      simp [Sax.step, Scan.toSax, hch]
    have hclosed : rest.head? ≠ some o.quote →
        feedRest o (deliverTo f) rest
          { Scan.toSax ⟨field, true, true, true, row, col, ()⟩ rowOpen ctx with
            quotePending := true } =
          .ok (delivered f rowOpen ctx
            (scanEvents o rest ⟨field, true, false, true, row, col, ()⟩)) := by
      intro hhead
      rw [feedRest_pending o f rfl rowOpen ctx hhead]
      exact hrest _ _ _ ⟨by simp, by simp, by simp⟩
    rw [hstep]
    change feedRest o (deliverTo f) rest _ = _
    cases rest with
    | nil => exact hclosed (by simp)
    | cons next after =>
      dsimp only
      by_cases hnext : next = o.quote
      · rw [if_pos hnext, feedRest_cons]
        have hescaped : Sax.step { Scan.toSax ⟨field, true, true, true, row, col, ()⟩ rowOpen ctx with
            quotePending := true } o (deliverTo f) next =
              .ok (Scan.toSax ⟨field ++ [o.quote], true, true, true, row, col, ()⟩ rowOpen ctx) := by
          simp [Sax.step, Scan.toSax, hnext]
        rw [hescaped]
        exact hafter _ _ _ ⟨by simp, by simp, fun _ => ⟨rfl, rfl⟩⟩
      · rw [if_neg hnext]
        exact hclosed fun heq => hnext (Option.some_inj.1 heq)
  · rw [if_neg hch]
    have hstep : (Scan.toSax ⟨field, true, true, true, row, col, ()⟩ rowOpen ctx).step o
        (deliverTo f) ch =
          .ok (Scan.toSax ⟨field ++ [ch], true, true, true, row, col, ()⟩ rowOpen ctx) := by
      simp [Sax.step, Scan.toSax, hch]
    rw [hstep]
    exact hrest _ _ _ ⟨by simp, by simp, fun _ => ⟨rfl, rfl⟩⟩

/-- What follows the byte that ends a row. -/
theorem feedRest_newline (hsound : s.Sound) (rowOpen : Bool) (ctx : σ) :
    Agrees o f rest → Agrees o f rest.tail →
    feedRest o (deliverTo f) rest
        (if ch = '\r' then { s.toSax rowOpen ctx with skipLf := true } else s.toSax rowOpen ctx) =
      .ok (delivered f rowOpen ctx (match rest with
        | lf :: after =>
            if ch = '\r' && lf = '\n' then scanEvents o after s else scanEvents o (lf :: after) s
        | [] => scanEvents o [] s)) := by
  intro hrest hafter
  by_cases hcr : ch = '\r'
  · rw [if_pos hcr, feedRest_skipLf]
    cases rest with
    | nil => exact hrest _ _ _ hsound
    | cons next after =>
      dsimp only
      by_cases hlf : next = '\n'
      · rw [List.head?_cons, if_pos (congrArg some hlf), if_pos (by simp [hcr, hlf])]
        exact hafter _ _ _ hsound
      · rw [List.head?_cons, if_neg fun heq => hlf (Option.some_inj.1 heq),
          if_neg (by simp [hlf])]
        exact hrest _ _ _ hsound
  · rw [if_neg hcr]
    cases rest with
    | nil => exact hrest _ _ _ hsound
    | cons next after =>
      dsimp only
      rw [if_neg (by simp [hcr])]
      exact hrest _ _ _ hsound

theorem Scan.Sound.fresh (hsound : s.Sound) (hrow : s.rowStarted = false) :
    (⟨[], false, s.inQuote, false, s.row, 0, ()⟩ : Scan Unit) = s := by
  obtain ⟨hfieldStarted, hcol⟩ := hsound.row hrow
  have hfield := hsound.field hfieldStarted
  obtain ⟨field, fieldStarted, inQuote, rowStarted, row, col, _⟩ := s
  dsimp only at hrow hfieldStarted hcol hfield
  subst hrow hfieldStarted hcol hfield
  rfl

/-- A byte outside of quotes. -/
theorem feedRest_unquoted (hsound : s.Sound) (hquote : s.inQuote = false) (rowOpen : Bool)
    (ctx : σ) (hrest : Agrees o f rest) (hafter : Agrees o f rest.tail) :
    feedRest o (deliverTo f) (ch :: rest) (s.toSax rowOpen ctx) =
      .ok (delivered f rowOpen ctx (scanEvents o (ch :: rest) s)) := by
  have hstep : (s.toSax rowOpen ctx).step o (deliverTo f) ch =
      (s.toSax rowOpen ctx).plain o (deliverTo f) ch := by
    simp [Sax.step, Scan.toSax, hquote]
  rw [feedRest_cons, hstep, scanEvents.eq_def]
  dsimp only
  rw [if_neg (Bool.not_eq_true _ ▸ hquote)]
  unfold Sax.plain
  by_cases hopen : (!s.fieldStarted && decide (ch = o.quote)) = true
  · have hopen' : (!(s.toSax rowOpen ctx).fieldStarted && decide (ch = o.quote)) = true := hopen
    rw [if_pos hopen, if_pos hopen']
    exact hrest { s with inQuote := true, fieldStarted := true, rowStarted := true } rowOpen ctx
      ⟨by simp, by simp, fun _ => ⟨rfl, rfl⟩⟩
  · have hopen' : ¬(!(s.toSax rowOpen ctx).fieldStarted && decide (ch = o.quote)) = true := hopen
    rw [if_neg hopen, if_neg hopen']
    by_cases hdelimiter : ch = o.delimiter
    · rw [if_pos hdelimiter, if_pos hdelimiter, emitField_toSax, delivered_field]
      exact hrest
        { s with col := s.col + 1, field := [], fieldStarted := false, rowStarted := true } true _
        ⟨fun _ => rfl, by simp, fun h => absurd (hquote.symm.trans h) (by simp)⟩
    · rw [if_neg hdelimiter, if_neg hdelimiter]
      by_cases hnewline : (decide (ch = '\r') || decide (ch = '\n')) = true
      · rw [if_pos hnewline, if_pos hnewline]
        by_cases hends : (s.rowStarted || s.fieldStarted || !o.skipEmptyRows) = true
        · have hsax : (if ((s.toSax rowOpen ctx).rowStarted || (s.toSax rowOpen ctx).fieldStarted ||
              !o.skipEmptyRows) = true then (s.toSax rowOpen ctx).endRow (deliverTo f)
                ((s.toSax rowOpen ctx).rowStarted || (s.toSax rowOpen ctx).fieldStarted)
                else .ok (s.toSax rowOpen ctx)) = _ :=
            (if_pos hends).trans (endRow_toSax f hsound rowOpen ctx)
          dsimp only
          rw [hsax, if_pos hends, if_pos hends, delivered_row]
          have hnext : (⟨[], false, s.inQuote, false, s.row + 1, 0, ()⟩ : Scan Unit).Sound :=
            ⟨fun _ => rfl, fun _ => ⟨rfl, rfl⟩, fun h => absurd (hquote.symm.trans h) (by simp)⟩
          exact feedRest_newline hnext _ _ hrest hafter
        · have hsax : (if ((s.toSax rowOpen ctx).rowStarted || (s.toSax rowOpen ctx).fieldStarted ||
              !o.skipEmptyRows) = true then (s.toSax rowOpen ctx).endRow (deliverTo f)
                ((s.toSax rowOpen ctx).rowStarted || (s.toSax rowOpen ctx).fieldStarted)
                else .ok (s.toSax rowOpen ctx)) = .ok (s.toSax rowOpen ctx) := if_neg hends
          dsimp only
          rw [hsax, if_neg hends, if_neg hends, List.nil_append]
          simp only [Bool.or_eq_true, not_or, Bool.not_eq_true] at hends
          rw [hsound.fresh hends.1.1]
          exact feedRest_newline hsound _ _ hrest hafter
      · rw [if_neg hnewline, if_neg hnewline]
        exact hrest { s with field := s.field ++ [ch], fieldStarted := true, rowStarted := true }
          rowOpen ctx ⟨by simp, by simp, fun _ => ⟨rfl, rfl⟩⟩

variable (o f) in
theorem feedRest_toSax (rest : List Char) : Agrees o f rest := by
  induction hlen : rest.length using Nat.strong_induction_on generalizing rest with
  | _ n ih =>
    subst hlen
    match rest with
    | [] => exact fun s rowOpen ctx _ => feedRest_nil o f s rowOpen ctx
    | ch :: rest =>
      intro s rowOpen ctx hsound
      have hrest : Agrees o f rest := ih rest.length (Nat.lt_succ_self _) rest rfl
      have hafter : Agrees o f rest.tail :=
        ih rest.tail.length (by rw [List.length_tail, List.length_cons]; omega) rest.tail rfl
      cases hquote : s.inQuote with
      | true => exact feedRest_quoted hsound hquote rowOpen ctx hrest hafter
      | false => exact feedRest_unquoted hsound hquote rowOpen ctx hrest hafter

end Simulation

/-! ## The cuts -/

section Pieces

variable {σ : Type} {o : Options} {handler : StreamHandler σ} {p p' : Sax σ}

theorem Sax.startRow_finished (h : p.startRow handler = .ok p') : p'.finished = p.finished := by
  unfold Sax.startRow at h
  split_ifs at h
  · cases h
    rfl
  · split at h <;> cases h
    rfl

theorem Sax.emitField_finished (h : p.emitField handler = .ok p') : p'.finished = p.finished := by
  obtain ⟨mid, hmid, hrest⟩ := bind_eq_ok.1 h
  split at hrest <;> cases hrest
  exact (startRow_finished hmid :)

theorem Sax.endRow_finished {hasField : Bool} (h : p.endRow handler hasField = .ok p') :
    p'.finished = p.finished := by
  obtain ⟨mid, hmid, hrest⟩ := bind_eq_ok.1 h
  obtain ⟨started, hstarted, hend⟩ := bind_eq_ok.1 hrest
  split at hend <;> cases hend
  rw [← show mid.finished = p.finished by
    split_ifs at hmid
    · exact emitField_finished hmid
    · cases hmid
      rfl]
  exact (startRow_finished hstarted :)

theorem Sax.plain_finished {ch : Char} (h : p.plain o handler ch = .ok p') :
    p'.finished = p.finished := by
  unfold Sax.plain at h
  by_cases hopen : (!p.fieldStarted && decide (ch = o.quote)) = true
  · rw [if_pos hopen] at h
    cases h
    rfl
  · rw [if_neg hopen] at h
    by_cases hdelimiter : ch = o.delimiter
    · rw [if_pos hdelimiter] at h
      obtain ⟨mid, hmid, rfl⟩ := map_eq_ok.1 h
      exact (emitField_finished hmid :)
    · rw [if_neg hdelimiter] at h
      by_cases hnewline : (decide (ch = '\r') || decide (ch = '\n')) = true
      · rw [if_pos hnewline] at h
        obtain ⟨mid, hmid, rfl⟩ := map_eq_ok.1 h
        have hkept : mid.finished = p.finished := by
          split_ifs at hmid
          · exact endRow_finished hmid
          · cases hmid
            rfl
        split_ifs <;> exact hkept
      · rw [if_neg hnewline] at h
        cases h
        rfl

theorem Sax.step_finished {ch : Char} (h : p.step o handler ch = .ok p') :
    p'.finished = p.finished := by
  unfold Sax.step at h
  dsimp only at h
  by_cases hskip : (p.skipLf && decide (ch = '\n')) = true
  · rw [if_pos hskip] at h
    cases h
    rfl
  · rw [if_neg hskip] at h
    by_cases hquote : p.inQuote = true
    · rw [if_pos hquote] at h
      by_cases hpending : p.quotePending = true
      · rw [if_pos hpending] at h
        by_cases hch : ch = o.quote
        · rw [if_pos hch] at h
          cases h
          rfl
        · rw [if_neg hch] at h
          exact (plain_finished h :)
      · rw [if_neg hpending] at h
        split_ifs at h <;> cases h <;> rfl
    · rw [if_neg hquote] at h
      exact (plain_finished h :)

/-- Fed in pieces or at once, the parser goes through the same states. -/
theorem feedPieces_eq (handler : StreamHandler σ) (pieces : List (List Char))
    (opts : Option Options) (ctx : σ) : feedPieces handler pieces opts ctx =
      feedRest (.normalize opts) handler pieces.flatten (.create ctx) := by
  have hpieces (p : Sax σ) (hp : p.finished = false) :
      pieces.foldlM (fun (p : Sax σ) piece => p.feed (.normalize opts) handler piece) p =
        pieces.flatten.foldlM (fun (p : Sax σ) ch => p.step (.normalize opts) handler ch) p := by
    induction pieces generalizing p with
    | nil => rfl
    | cons piece pieces ih =>
      rw [List.foldlM_cons, List.flatten_cons, List.foldlM_append, Sax.feed, if_neg (by simp [hp])]
      cases hpiece : piece.foldlM (fun (p : Sax σ) ch => p.step (.normalize opts) handler ch) p with
      | error message => rfl
      | ok p' =>
        have hp' : p'.finished = false :=
          foldlM_keeps (P := fun p => p.finished = false)
            (fun p ch _ p' hp h => (Sax.step_finished h).trans hp) hp hpiece
        exact ih p' hp'
  rw [feedPieces, hpieces _ rfl, feedRest]

theorem feedPieces_report (f : σ → Event → σ) (ctx : σ) (opts : Option Options)
    (pieces : List (List Char)) : feedPieces (deliverTo f) pieces opts ctx =
      .ok ((withStarts false (scanReport pieces.flatten opts).1).foldl f ctx,
        (scanReport pieces.flatten opts).2) := by
  have hsound : (Scan.init ()).Sound := ⟨fun _ => rfl, fun _ => ⟨rfl, rfl⟩, nofun⟩
  rw [feedPieces_eq]
  exact feedRest_toSax (.normalize opts) f pieces.flatten (.init ()) false ctx hsound

end Pieces

/-! ## The rows -/

/-- What `csv_dom_scan_field` and `csv_dom_scan_row_end` make of a call. -/
def DomScan.call (scan : DomScan) : ScanEvent → DomScan
  | .field _ _ value => { scan with currentRow := some (scan.currentRow.getD [] ++ [value]) }
  | .rowEnd _ _ => ⟨scan.rows ++ [scan.currentRow.getD []], none⟩

def keepCall (rows : List Row × Row) : Event → List Row × Row
  | .rowStart _ => (rows.1, [])
  | .field _ _ value => (rows.1, rows.2 ++ [value])
  | .rowEnd _ _ => (rows.1 ++ [rows.2], [])

theorem withStarts_rows (events : List ScanEvent) (scan : DomScan) :
    ((withStarts scan.currentRow.isSome events).foldl keepCall
      (scan.rows, scan.currentRow.getD [])).1 = (events.foldl DomScan.call scan).rows := by
  induction events generalizing scan with
  | nil => rfl
  | cons event events ih =>
    obtain ⟨rows, currentRow⟩ := scan
    cases event with
    | field row col value =>
      cases currentRow with
      | none => exact ih ⟨rows, some ([] ++ [value])⟩
      | some fields => exact ih ⟨rows, some (fields ++ [value])⟩
    | rowEnd row fields => cases currentRow <;> exact ih ⟨_, none⟩

/-- The rows that are reported to a handler are those that the scanner finds. -/
theorem streamRows_eq (content : List Char) (opts : Option Options) :
    streamRows content opts = scanRows content opts := by
  have hpieces := feedPieces_report keepCall ([], []) opts [content]
  rw [feedPieces_eq, List.flatten_singleton] at hpieces
  have hscan : scanRows content opts =
      (called DomScan.call ⟨[], none⟩ (scanReport content opts)).map DomScan.rows :=
    congrArg (Except.map DomScan.rows)
      (scanLoop_scanTo (.normalize opts) DomScan.call content (.init ⟨[], none⟩))
  have hrows := withStarts_rows (scanReport content opts).1 ⟨[], none⟩
  obtain ⟨p, hp, hreport⟩ := map_eq_ok.1 hpieces
  have hfeed : (Sax.create ([], [])).feed (.normalize opts) keepRows content = .ok p := hp
  have hstream : csvParseStreamOpts content keepRows ([], []) opts =
      (Sax.report keepRows p).2.map fun _ => (Sax.report keepRows p).1 := by
    unfold csvParseStreamOpts
    dsimp only
    rw [hfeed, Sax.report]
    change (p.finish keepRows).map Sax.ctx = _
    cases p.finish keepRows <;> rfl
  have hkept : Sax.report keepRows p = _ := hreport
  rw [hscan, streamRows, hstream, hkept, called]
  cases (scanReport content opts).2 with
  | error message => rfl
  | ok _ => exact congrArg Except.ok hrows

/-- However the bytes are cut, a handler gets the calls of the scanner with the starts of the rows,
and the parser returns what the scanner returns, as when the bytes are fed at once. -/
theorem feed_segmentation_invariant {σ : Type} (f : σ → Event → σ) (ctx : σ)
    (opts : Option Options) (pieces : List (List Char)) :
    feedPieces (deliverTo f) pieces opts ctx =
        feedPieces (deliverTo f) [pieces.flatten] opts ctx ∧
      feedPieces (deliverTo f) pieces opts ctx =
        .ok ((withStarts false (scanReport pieces.flatten opts).1).foldl f ctx,
          (scanReport pieces.flatten opts).2) ∧
      ∀ (σ' : Type) (g : σ' → ScanEvent → σ') (scanCtx : σ'),
        csvScanOpts (scanTo g) pieces.flatten opts scanCtx =
          called g scanCtx (scanReport pieces.flatten opts) := by
  refine ⟨?_, feedPieces_report f ctx opts pieces, fun σ' g scanCtx =>
    scanLoop_scanTo (.normalize opts) g pieces.flatten (.init scanCtx)⟩
  rw [feedPieces_eq, feedPieces_eq, List.flatten_singleton]

end Csv
