import Mathlib.Data.List.DropRight
import TurboUtils.Csv.FilterScan
import TurboUtils.Csv.Iterator

/-! The readers of a thread share the state of its lexers: what one of them leaves, the next one
finds. -/
namespace Csv

/-- `csv_iter_s`: its lexer, but for the state, or the rows of a document that are left. -/
inductive Iter where
  | lexing (rest : List Char) (line column : ℕ)
  | document (rows : List Row)

/-- A thread: `g_state`, and its iterators. -/
structure Thread (ι : Type) where
  state : LexerState
  iters : ι → Option Iter

/-- The calls of a thread; the sidecar index that is built may be mapped already. -/
inductive Call (ι : Type) : Type 1 where
  | iterNew (i : ι) (content : List Char) (opts : Option Options)
  | iterNext (i : ι)
  | parse (content : List Char) (opts : Option Options)
  | filterScan {σ : Type} (content : List Char) (opts : Option Options) (plan : ScanPlan σ) (ctx : σ)
  | indexBuild (mapped : Bool) (config : Dsv.IndexConfig) (content : List Char)

/-- A token in the loop of `dsv_index_build_internal`. -/
def buildToken (config : Dsv.IndexConfig) (len : ℕ) (l : Lexer) (b : Dsv.Build) :
    Token → Except String Dsv.Build
  | .field value needsUnescape => b.field config value needsUnescape
  | .comma => .ok b
  | .newline =>
      if b.hasField then do
        let cursor := len - l.rest.length
        let b ← b.finishRow config cursor
        .ok { b with row := ⟨none, none, none⟩, column := 0, hasField := false, rowStart := cursor }
      else .ok b

/-- The loop of `dsv_index_build_internal`. -/
def buildContent (config : Dsv.IndexConfig) (content : List Char) :
    Lexer × Except String Dsv.Build :=
  readContent (buildToken config content.length) id content (.init config)

/-- The checks of `dsv_index_build_internal` before it lexes. -/
def buildRefused (mapped : Bool) (config : Dsv.IndexConfig) : Bool :=
  2 ^ 32 - 1 < config.textColumn || 2 ^ 32 - 1 < config.numberColumn ||
    config.textColumn = config.numberColumn ||
      config.coveringInt64Column.any (2 ^ 32 - 1 < ·) || mapped

/-- `csv_iter_new_opts`, but for the state. -/
def Iter.new (content : List Char) (opts : Option Options) : Option Iter :=
  if (Options.normalize opts).useFastLexer then some (.lexing content 1 1)
  else (csvParseOpts content opts).toOption.map fun doc => .document doc.rows

/-- `csv_iter_next`: the iterator and the state after it, and the row if there is one. -/
def Iter.next (state : LexerState) : Iter → Iter × LexerState × Option Row
  | .lexing rest line column =>
      let l : Lexer := ⟨rest, line, column, state⟩
      match iterNext (l.budget + 1) l [] with
      | (l, row) => (.lexing l.rest l.line l.column, l.state, row)
  | .document [] => (.document [], state, none)
  | .document (row :: rows) => (.document rows, state, some row)

namespace Thread

variable {ι : Type} [DecidableEq ι]

def fresh : Thread ι := ⟨.rowStart, fun _ => none⟩

/-- One call: the thread after it, and what `csv_iter_next` yields for an iterator. -/
def perform (t : Thread ι) : Call ι → Thread ι × Option (ι × Option Row)
  | .iterNew i content opts =>
      (⟨if (Options.normalize opts).useFastLexer then .rowStart else t.state,
        Function.update t.iters i (Iter.new content opts)⟩, none)
  | .iterNext i =>
      match t.iters i with
      | none => (t, some (i, none))
      | some iter =>
          match iter.next t.state with
          | (iter, state, row) =>
              (⟨state, Function.update t.iters i (some iter)⟩, some (i, row))
  | .parse content opts =>
      if content ≠ [] ∧ (Options.normalize opts).useFastLexer then
        ({ t with state := (parseContent content).1.state }, none)
      else (t, none)
  | .filterScan content opts plan ctx =>
      match plan.check opts with
      | .ok () => ({ t with state := (filterTokens content opts plan ctx).1.state }, none)
      | .error _ => (t, none)
  | .indexBuild mapped config content =>
      if buildRefused mapped config then (t, none)
      else ({ t with state := (buildContent config content).1.state }, none)

def run (calls : List (Call ι)) : Thread ι × List (ι × Option Row) :=
  calls.foldl (fun (t, yielded) call => let (t, row) := t.perform call; (t, yielded ++ row.toList))
    (fresh, [])

def yields (calls : List (Call ι)) (i : ι) : List (Option Row) :=
  (run calls).2.filterMap fun (j, row) => if j = i then some row else none

end Thread

def Call.on {ι : Type} [DecidableEq ι] (i : ι) : Call ι → Bool
  | .iterNew j _ _ => j = i
  | .iterNext j => j = i
  | _ => false

/-! ## The readers -/

section Readers

end Readers

/-! ## What the state decides -/

/-- Enough fuel is enough. -/
theorem iterNext_fuel {fuel fuel' : ℕ} {l : Lexer} (row : Row) (hfuel : l.budget < fuel)
    (hfuel' : l.budget < fuel') : iterNext fuel l row = iterNext fuel' l row := by
  induction fuel generalizing l row fuel' with
  | zero => exact absurd hfuel (Nat.not_lt_zero _)
  | succ fuel ih =>
    obtain ⟨fuel', rfl⟩ : ∃ n, fuel' = n + 1 := ⟨fuel' - 1, by omega⟩
    rw [iterNext, iterNext]
    cases hnext : l.next with
    | mk l' lexed =>
      cases lexed with
      | token token =>
        have hbudget := (next_token hnext).budget
        cases token with
        | field value needsUnescape => exact ih _ (by omega) (by omega)
        | comma => exact ih _ (by omega) (by omega)
        | newline =>
          dsimp only
          split_ifs
          · exact ih _ (by omega) (by omega)
          · rfl
      | done => rfl
      | error message => rfl

def iterFrom (l : Lexer) (row : Row) : Lexer × Option Row := iterNext (l.budget + 1) l row

def iterAfter (l : Lexer) (row : Row) : Token → Lexer × Option Row
  | .field value needsUnescape => iterFrom l (row ++ [fieldText value needsUnescape])
  | .comma => iterFrom l (if row = [] then [[]] else row)
  | .newline => if row = [] then iterFrom l [] else (l, some row)

theorem iterFrom_token {l l' : Lexer} {token : Token} (hnext : l.next = (l', .token token))
    (row : Row) : iterFrom l row = iterAfter l' row token := by
  have hbudget := (next_token hnext).budget
  rw [iterFrom, iterNext, hnext]
  cases token with
  | field value needsUnescape => exact iterNext_fuel _ hbudget (Nat.lt_succ_self _)
  | comma => exact iterNext_fuel _ hbudget (Nat.lt_succ_self _)
  | newline =>
    dsimp only [iterAfter]
    split_ifs
    · exact iterNext_fuel _ hbudget (Nat.lt_succ_self _)
    · rfl

theorem iterFrom_last {l l' : Lexer} {lexed : Lexed} (hnext : l.next = (l', lexed))
    (hlast : ∀ token, lexed ≠ .token token) (row : Row) :
    iterFrom l row = (l', if row = [] then none else some row) := by
  rw [iterFrom, iterNext, hnext]
  cases lexed with
  | token token => exact absurd rfl (hlast token)
  | done => rfl
  | error message => rfl

/-- Whether a token is read at the cursor whatever the state: a comma, or a field that is there. -/
def steady : List Char → Bool
  | [] => false
  | c :: rest => c = ',' || !isSpecial c || (c = '"' && (quoted rest).isSome)

/-- Outcomes that differ in the state alone, and not in whether it is behind a comma. -/
structure Alike (a b : Lexer × Option Row) : Prop where
  row : a.2 = b.2
  rest : a.1.rest = b.1.rest
  line : a.1.line = b.1.line
  column : a.1.column = b.1.column
  state : a.1.state = .afterComma ↔ b.1.state = .afterComma

theorem Alike.refl (a : Lexer × Option Row) : Alike a a := ⟨rfl, rfl, rfl, rfl, Iff.rfl⟩

section Alike

variable {rest : List Char} (line column : ℕ)

/-- A comma at the start of a row is one behind an empty field, with or without a token for it. -/
theorem iterFrom_comma (state : LexerState) : iterFrom ⟨',' :: rest, line, column, state⟩ [] =
    iterFrom ⟨rest, line, column + 1, .afterComma⟩ [[]] := by
  have hcomma : Lexer.next ⟨',' :: rest, line, column, .afterField⟩ =
      (⟨rest, line, column + 1, .afterComma⟩, .token .comma) := rfl
  cases state with
  | afterField => exact iterFrom_token hcomma []
  | rowStart =>
    have hfield : Lexer.next ⟨',' :: rest, line, column, .rowStart⟩ =
        (⟨',' :: rest, line, column, .afterField⟩, .token (.field [] false)) := rfl
    rw [iterFrom_token hfield]
    exact iterFrom_token hcomma [[]]
  | afterComma =>
    have hfield : Lexer.next ⟨',' :: rest, line, column, .afterComma⟩ =
        (⟨',' :: rest, line, column, .afterField⟩, .token (.field [] false)) := rfl
    rw [iterFrom_token hfield]
    exact iterFrom_token hcomma [[]]

theorem next_eq_rules {c : Char} (hspecial : isSpecial c = true) (hcomma : c ≠ ',')
    {state : LexerState} (hstate : state = .afterComma → c = '"') :
    Lexer.next ⟨c :: rest, line, column, state⟩ = Lexer.rules ⟨c :: rest, line, column, state⟩ :=
  next_special hspecial hstate fun _ => hcomma

theorem iterFrom_steady (hsteady : steady rest = true) (state state' : LexerState) :
    iterFrom ⟨rest, line, column, state⟩ [] = iterFrom ⟨rest, line, column, state'⟩ [] := by
  cases rest with
  | nil => cases hsteady
  | cons c rest =>
    by_cases hcomma : c = ','
    · subst hcomma
      rw [iterFrom_comma, iterFrom_comma]
    suffices h : ∃ l token, ∀ state, Lexer.next ⟨c :: rest, line, column, state⟩ =
        (l, .token token) by
      obtain ⟨l, token, hnext⟩ := h
      rw [iterFrom_token (hnext state), iterFrom_token (hnext state')]
    cases hspecial : isSpecial c with
    | true =>
      simp only [steady, hcomma, hspecial, decide_false, Bool.not_true, Bool.or_self, Bool.false_or,
        Bool.and_eq_true, decide_eq_true_eq] at hsteady
      obtain ⟨rfl, hquoted⟩ := hsteady
      obtain ⟨⟨value, after⟩, hvalue⟩ := Option.isSome_iff_exists.1 hquoted
      refine ⟨⟨after, (position line column ('"' :: value ++ ['"'])).1,
        (position line column ('"' :: value ++ ['"'])).2, .afterField⟩,
        .field value (hasEscapedQuote value), fun state => ?_⟩
      rw [next_eq_rules line column hspecial hcomma fun _ => rfl]
      simp only [Lexer.rules, hvalue]
    | false =>
      have hordinary : c ≠ '\n' ∧ c ≠ '\r' := by
        simp only [isSpecial, Bool.or_eq_false_iff, decide_eq_false_iff_not] at hspecial
        exact ⟨hspecial.2, hspecial.1.2⟩
      have hrun : (c :: rest).takeWhile (fun c => !isSpecial c) ≠ [] := by
        rw [List.takeWhile_cons, hspecial]
        exact List.cons_ne_nil _ _
      refine ⟨⟨(c :: rest).drop ((c :: rest).takeWhile fun c => !isSpecial c).length, line,
        column + ((c :: rest).takeWhile fun c => !isSpecial c).length, .afterField⟩,
        .field ((c :: rest).takeWhile fun c => !isSpecial c) false, fun state => ?_⟩
      simp only [Lexer.next, List.head?_cons, Option.some.injEq, hcomma, hordinary, reduceCtorEq,
        or_false, and_false, if_false, ne_eq, hrun, not_false_eq_true, if_true]

/-- Where no token is read whatever the state, a state that is not behind a comma stays at an error
and decides nothing else. -/
theorem next_unsteady (hsteady : steady rest = false) :
    (∃ l lexed, ∀ state, state ≠ .afterComma →
      Lexer.next ⟨rest, line, column, state⟩ = (l, lexed)) ∨
    ∃ after message, ∀ state, state ≠ .afterComma →
      Lexer.next ⟨rest, line, column, state⟩ = (⟨after, line, column, state⟩, .error message) := by
  cases rest with
  | nil =>
    refine .inl ⟨⟨[], line, column, .rowStart⟩, .done, fun state hstate => ?_⟩
    cases state with
    | rowStart => rfl
    | afterField => rfl
    | afterComma => exact absurd rfl hstate
  | cons c rest =>
    simp only [steady, Bool.or_eq_false_iff, decide_eq_false_iff_not, Bool.not_eq_false',
      Bool.and_eq_false_iff] at hsteady
    obtain ⟨⟨hcomma, hspecial⟩, hquote⟩ := hsteady
    have hrules : ∀ state, state ≠ .afterComma → Lexer.next ⟨c :: rest, line, column, state⟩ =
        Lexer.rules ⟨c :: rest, line, column, state⟩ := fun state hstate =>
      next_eq_rules line column hspecial hcomma fun h => absurd h hstate
    by_cases hlf : c = '\n'
    · subst hlf
      exact .inl ⟨⟨rest, line + 1, 1, .rowStart⟩, .token .newline, fun state hstate => hrules state hstate⟩
    by_cases hcrlf : c = '\r' ∧ ∃ after, rest = '\n' :: after
    · obtain ⟨rfl, after, rfl⟩ := hcrlf
      exact .inl ⟨⟨after, line + 1, 1, .rowStart⟩, .token .newline,
        fun state hstate => hrules state hstate⟩
    refine .inr ⟨rest, s!"Unexpected character 0x{hexByte c} at line {line}, column {column}",
      fun state hstate => ?_⟩
    rw [hrules state hstate]
    unfold Lexer.rules
    dsimp only
    split
    · next heq => cases heq
    · next heq =>
        cases heq
        exact absurd rfl hcomma
    · next heq =>
        cases heq
        exact absurd rfl hlf
    · next heq =>
        cases heq
        exact absurd ⟨rfl, _, rfl⟩ hcrlf
    · next heq =>
        cases heq
        have hnone : quoted rest = none := by simpa using hquote
        rw [hnone]
    · next heq =>
        cases heq
        rfl

theorem iterFrom_unsteady (hsteady : steady rest = false) {state state' : LexerState}
    (hstate : state ≠ .afterComma) (hstate' : state' ≠ .afterComma) :
    Alike (iterFrom ⟨rest, line, column, state⟩ []) (iterFrom ⟨rest, line, column, state'⟩ []) := by
  rcases next_unsteady line column hsteady with ⟨l, lexed, hnext⟩ | ⟨after, message, hnext⟩
  · have heq : iterFrom ⟨rest, line, column, state⟩ [] =
        iterFrom ⟨rest, line, column, state'⟩ [] := by
      by_cases htoken : ∃ token, lexed = .token token
      · obtain ⟨token, rfl⟩ := htoken
        rw [iterFrom_token (hnext state hstate), iterFrom_token (hnext state' hstate')]
      · have hlast : ∀ token, lexed ≠ .token token := fun token heq => htoken ⟨token, heq⟩
        rw [iterFrom_last (hnext state hstate) hlast, iterFrom_last (hnext state' hstate') hlast]
    rw [heq]
    exact .refl _
  · rw [iterFrom_last (hnext state hstate) nofun, iterFrom_last (hnext state' hstate') nofun]
    exact ⟨rfl, rfl, rfl, rfl, by simp [hstate, hstate']⟩

theorem iterFrom_alike {state state' : LexerState}
    (h : (state = .afterComma ↔ state' = .afterComma) ∨ steady rest = true) :
    Alike (iterFrom ⟨rest, line, column, state⟩ []) (iterFrom ⟨rest, line, column, state'⟩ []) := by
  by_cases hsteady : steady rest = true
  · rw [iterFrom_steady line column hsteady state state']
    exact .refl _
  have hiff := h.resolve_right hsteady
  by_cases hstate : state = .afterComma
  · rw [hstate, hiff.1 hstate]
    exact .refl _
  · exact iterFrom_unsteady line column (by simpa using hsteady) hstate
      fun hstate' => hstate (hiff.2 hstate')

end Alike

/-- The next row is the same where the state is alike, and the iterator and the state after it are. -/
theorem Iter.next_alike {iter : Iter} {state state' : LexerState}
    (h : ∀ rest line column, iter = .lexing rest line column →
      (state = .afterComma ↔ state' = .afterComma) ∨ steady rest = true) :
    (iter.next state).1 = (iter.next state').1 ∧ (iter.next state).2.2 = (iter.next state').2.2 ∧
      ∀ rest line column, (iter.next state).1 = .lexing rest line column →
        ((iter.next state).2.1 = .afterComma ↔ (iter.next state').2.1 = .afterComma) := by
  cases iter with
  | lexing rest line column =>
    obtain ⟨hrow, hrest, hline, hcolumn, hstate⟩ :=
      iterFrom_alike line column (h rest line column rfl)
    refine ⟨?_, hrow, fun _ _ _ _ => hstate⟩
    show Iter.lexing _ _ _ = Iter.lexing _ _ _
    exact congr (congr (congrArg Iter.lexing hrest) hline) hcolumn
  | document rows =>
    cases rows with
    | nil => exact ⟨rfl, rfl, nofun⟩
    | cons row rows => exact ⟨rfl, rfl, nofun⟩

/-! ## Runs -/

namespace Thread

variable {ι : Type} [DecidableEq ι]

theorem run_snoc (calls : List (Call ι)) (call : Call ι) : run (calls ++ [call]) =
    (((run calls).1.perform call).1, (run calls).2 ++ ((run calls).1.perform call).2.toList) := by
  rw [run, List.foldl_append]
  rfl

def alone (calls : List (Call ι)) (i : ι) : List (Call ι) := calls.filter (Call.on i)

def stateLeft (calls : List (Call ι)) (i : ι) : LexerState :=
  (run (calls.rdropWhile fun call => !call.on i)).1.state

/-- The next call of `csv_iter_next` finds the state behind a comma just if the last call on its
iterator has left it so, or a token at the cursor that does not depend on it. -/
def Undisturbed (calls : List (Call ι)) (i : ι) : Prop :=
  ∀ rest line column, (run calls).1.iters i = some (.lexing rest line column) →
    ((run calls).1.state = .afterComma ↔ stateLeft calls i = .afterComma) ∨ steady rest = true

structure Matches (calls : List (Call ι)) (i : ι) : Prop where
  iter : (run calls).1.iters i = (run (alone calls i)).1.iters i
  yields : yields calls i = yields (alone calls i) i
  state : ∀ rest line column, (run calls).1.iters i = some (.lexing rest line column) →
    (stateLeft calls i = .afterComma ↔ (run (alone calls i)).1.state = .afterComma)

variable {calls : List (Call ι)} {i : ι}

theorem yields_snoc (calls : List (Call ι)) (call : Call ι) (i : ι) : yields (calls ++ [call]) i =
    yields calls i ++ ((run calls).1.perform call).2.toList.filterMap fun (j, row) =>
      if j = i then some row else none := by
  rw [yields, run_snoc, List.filterMap_append]
  rfl

theorem alone_snoc (calls : List (Call ι)) (call : Call ι) (i : ι) : alone (calls ++ [call]) i =
    if call.on i then alone calls i ++ [call] else alone calls i := by
  rw [alone, List.filter_append]
  split_ifs with hon
  · rw [List.filter_cons_of_pos hon]
    rfl
  · rw [List.filter_cons_of_neg hon]
    exact List.append_nil _

theorem stateLeft_snoc (calls : List (Call ι)) (call : Call ι) (i : ι) :
    stateLeft (calls ++ [call]) i =
      if call.on i then (run (calls ++ [call])).1.state else stateLeft calls i := by
  rw [stateLeft, List.rdropWhile_concat]
  cases call.on i <;> rfl

/-- A call that is not on an iterator leaves it where it is. -/
theorem perform_other {call : Call ι} (hon : call.on i = false) (t : Thread ι) :
    (t.perform call).1.iters i = t.iters i ∧ (t.perform call).2.toList.filterMap
      (fun (j, row) => if j = i then some row else none) = [] := by
  cases call with
  | iterNew j content opts =>
    have hne : j ≠ i := of_decide_eq_false hon
    exact ⟨Function.update_of_ne hne.symm _ _, rfl⟩
  | iterNext j =>
    have hne : j ≠ i := of_decide_eq_false hon
    simp only [perform]
    split
    · exact ⟨rfl, by simp [hne]⟩
    · exact ⟨Function.update_of_ne hne.symm _ _, by simp [hne]⟩
  | parse content opts =>
    simp only [perform]
    split_ifs <;> exact ⟨rfl, rfl⟩
  | filterScan content opts plan ctx =>
    simp only [perform]
    split <;> exact ⟨rfl, rfl⟩
  | indexBuild mapped config content =>
    simp only [perform]
    split_ifs <;> exact ⟨rfl, rfl⟩

theorem Matches.other (h : Matches calls i) {call : Call ι} (hon : call.on i = false) :
    Matches (calls ++ [call]) i := by
  have halone : alone (calls ++ [call]) i = alone calls i := by
    rw [alone_snoc, hon]
    rfl
  have hleft : stateLeft (calls ++ [call]) i = stateLeft calls i := by
    rw [stateLeft_snoc, hon]
    rfl
  obtain ⟨hiter, hyields⟩ := perform_other hon (run calls).1
  constructor
  · rw [halone, run_snoc, ← h.iter]
    exact hiter
  · rw [halone, yields_snoc, hyields, List.append_nil]
    exact h.yields
  · rw [halone, hleft, run_snoc]
    dsimp only
    rw [hiter]
    exact h.state

theorem Matches.iterNew (h : Matches calls i) (content : List Char) (opts : Option Options) :
    Matches (calls ++ [.iterNew i content opts]) i := by
  have hon : Call.on i (.iterNew i content opts) = true := decide_eq_true rfl
  have halone : alone (calls ++ [.iterNew i content opts]) i =
      alone calls i ++ [.iterNew i content opts] := by
    rw [alone_snoc, if_pos hon]
  refine ⟨?_, ?_, ?_⟩
  · rw [halone, run_snoc, run_snoc]
    simp only [perform, Function.update_self]
  · rw [halone, yields_snoc, yields_snoc, h.yields]
    rfl
  · rw [halone, stateLeft_snoc, if_pos hon, run_snoc, run_snoc]
    simp only [perform, Function.update_self, Iter.new]
    intro rest line column hiter
    split_ifs at hiter with hfast
    · simp only [if_pos hfast]
    · simp at hiter

theorem Matches.iterNext (h : Matches calls i) (hfree : Undisturbed calls i) :
    Matches (calls ++ [.iterNext i]) i := by
  have hon : Call.on i (.iterNext i) = true := decide_eq_true rfl
  have halone : alone (calls ++ [.iterNext i]) i = alone calls i ++ [.iterNext i] := by
    rw [alone_snoc, if_pos hon]
  have hsame := h.iter
  cases hiter : (run calls).1.iters i with
  | none =>
    rw [hiter] at hsame
    refine ⟨?_, ?_, ?_⟩
    · rw [halone, run_snoc, run_snoc]
      simp only [perform, hiter, ← hsame]
    · rw [halone, yields_snoc, yields_snoc, h.yields]
      simp only [perform, hiter, ← hsame]
    · rw [halone, stateLeft_snoc, if_pos hon, run_snoc, run_snoc]
      simp only [perform, hiter, reduceCtorEq, false_imp_iff, implies_true]
  | some iter =>
    rw [hiter] at hsame
    have hfound : ∀ rest line column, iter = .lexing rest line column →
        ((run calls).1.state = .afterComma ↔ (run (alone calls i)).1.state = .afterComma) ∨
          steady rest = true := by
      rintro rest line column rfl
      exact (hfree rest line column hiter).imp_left
        fun hleft => hleft.trans (h.state rest line column hiter)
    obtain ⟨hnext, hrow, hstate⟩ := Iter.next_alike hfound
    refine ⟨?_, ?_, ?_⟩
    · rw [halone, run_snoc, run_snoc]
      simp only [perform, hiter, ← hsame, Function.update_self, hnext]
    · rw [halone, yields_snoc, yields_snoc, h.yields]
      simp only [perform, hiter, ← hsame, hrow]
    · rw [halone, stateLeft_snoc, if_pos hon, run_snoc, run_snoc]
      simp only [perform, hiter, ← hsame, Function.update_self, Option.some.injEq]
      exact hstate

/-- Calls that find the state as they should yield what they yield without the others. -/
theorem yields_alone (calls : List (Call ι))
    (hfree : ∀ before i, before ++ [.iterNext i] <+: calls → Undisturbed before i) (i : ι) :
    yields calls i = yields (alone calls i) i := by
  suffices h : Matches calls i from h.yields
  induction calls using List.reverseRecOn with
  | nil => exact ⟨rfl, rfl, fun _ _ _ _ => Iff.rfl⟩
  | append_singleton calls call ih =>
    have hmatches := ih fun before j hbefore =>
      hfree before j (hbefore.trans (List.prefix_append _ _))
    cases hon : call.on i with
    | false => exact hmatches.other hon
    | true =>
      cases call with
      | iterNew j content opts =>
        obtain rfl : j = i := of_decide_eq_true hon
        exact hmatches.iterNew content opts
      | iterNext j =>
        obtain rfl : j = i := of_decide_eq_true hon
        exact hmatches.iterNext (hfree calls j List.prefix_rfl)
      | parse content opts => cases hon
      | filterScan content opts plan ctx => cases hon
      | indexBuild mapped config content => cases hon

/-- A refused document leaves the state behind a comma, and an iterator that stands at a field reads
it before one that stands at a line end goes on. -/
def steadied : List (Call Bool) :=
  [.iterNew false "\na".toList none, .iterNew true "b".toList none, .parse "x,\"y".toList none,
    .iterNext true, .iterNext false]

theorem yields_alone_steadied : yields steadied false = [some ["a".toList]] ∧
    yields steadied false = yields (alone steadied false) false := by
  refine ⟨by decide, yields_alone steadied (fun before i hbefore => ?_) false⟩
  obtain ⟨rest, hrest⟩ := hbefore
  rcases before with _ | ⟨a, _ | ⟨b, _ | ⟨c, _ | ⟨d, _ | ⟨e, before⟩⟩⟩⟩⟩ <;>
    simp [steadied] at hrest
  · obtain ⟨rfl, rfl, rfl, rfl, rfl⟩ := hrest
    have hsteady : (run [.iterNew false "\na".toList none, .iterNew true "b".toList none,
        .parse "x,\"y".toList none]).1.iters true = some (.lexing "b".toList 1 1) := rfl
    intro rest line column hiter
    cases hsteady.symm.trans hiter
    exact .inr (by decide)
  · obtain ⟨rfl, rfl, rfl, rfl, rfl, -⟩ := hrest
    exact fun _ _ _ _ => .inl (by decide)

/-- A refused document leaves the state behind a comma before an iterator that stands at a line end
goes on. -/
def leaking : List (Call Bool) :=
  [.iterNew false "\na".toList none, .iterNew true "b".toList none, .parse "x,\"y".toList none,
    .iterNext false, .iterNext false]

/-- Its next row is a field that is not there. -/
theorem state_leaks : yields leaking false = [some [[]], some ["a".toList]] ∧
    yields (alone leaking false) false = [some ["a".toList], none] ∧
      yields leaking false ≠ yields (alone leaking false) false := by
  decide

end Thread

end Csv
