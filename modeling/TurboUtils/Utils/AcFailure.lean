import TurboUtils.Utils.AcMatch

/-! A pattern that is refused halfway: the nodes that were already appended stay in the trie, without a
failure link, and the automaton still counts as built. -/
namespace AcAutomaton
open SuffixLinks

section Refused

variable {S α : Type} [DecidableEq α] {M : Machine S α} {ac ac' : Automaton S}
  {patterns : List (List α)} {symbols : List α} {memory : Memory} {e : AddError}

/-- Whether a node is linked into the trie: a symbol of the pattern is missing there, and what the first
one needs is granted. -/
def Machine.attaches (M : Machine S α) (memory : Memory) (ac : Automaton S) (symbols : List α) : Bool :=
  !has M.store ac.trie (symbols.take uint32Max) && M.grows memory ac.trie

omit [DecidableEq α] in
theorem addSymbols_error (h : M.addSymbols memory ac symbols = (.error e, ac')) :
    ac' = { ac with trie := (insertPath (M.add memory) (symbols.take uint32Max) 0 ac.trie).2 } := by
  rw [Machine.addSymbols, AcAutomaton.addSymbols] at h
  rcases hinsert : insertPath (M.add memory) (symbols.take uint32Max) 0 ac.trie with ⟨_ | state, trie⟩
  all_goals
    rw [hinsert] at h
    dsimp only at h
  · exact (Prod.mk.inj h).2.symm
  · split_ifs at h
    · exact (Prod.mk.inj h).2.symm
    · rw [addOutput] at h
      split_ifs at h
      · cases h
      · exact (Prod.mk.inj h).2.symm

/-- Where no node is linked, an automaton still knows its patterns. -/
theorem Holds.addSymbols_kept (hM : M.Lawful) (h : Holds M ac patterns)
    (hadd : M.addSymbols memory ac symbols = (.error e, ac'))
    (hattaches : M.attaches memory ac symbols = false) :
    Holds M ac' patterns ∧ ac'.built = ac.built := by
  obtain rfl := addSymbols_error hadd
  have hadds := hM.adds memory
  cases hhas : has M.store ac.trie (symbols.take uint32Max) with
  | true =>
    obtain ⟨j, hinsert⟩ := hadds.insertPath_found (u := []) h.good h.tree rfl hhas
    rw [hinsert]
    exact ⟨h, rfl⟩
  | false =>
    have hgrows : M.grows memory ac.trie = false := by
      rw [Machine.attaches, hhas] at hattaches
      exact hattaches
    obtain ⟨o, trie, hinsert, hgood, hext, -⟩ :=
      hadds.insertPath (p := symbols.take uint32Max) (u := []) h.good h.tree rfl
    obtain ⟨trie', hinsert', hidle⟩ := hadds.insertPath_idle (u := []) h.good h.tree rfl hhas hgrows
    obtain ⟨-, rfl⟩ := Prod.mk.inj (hinsert.symm.trans hinsert')
    rw [hinsert]
    exact ⟨⟨hgood, hext.tree, h.root_extends hext, h.chains_extends hext, h.ends_extends hext, h.nextId,
      fun hbuilt => hidle.linked (h.linked hbuilt)⟩, rfl⟩

/-- Where a node is linked, a text leads to it and not on. -/
theorem Holds.addSymbols_broken (hM : M.Lawful) (h : Holds M ac patterns)
    (hadd : M.addSymbols memory ac symbols = (.error e, ac'))
    (hattaches : M.attaches memory ac symbols = true) (d : α) (reports : List Report) :
    AcAutomaton.matchSymbols M.store ac' (symbols ++ [d]) ≠ .ok reports := by
  obtain rfl := addSymbols_error hadd
  have hadds := hM.adds memory
  obtain ⟨hhas, hgrows⟩ := Bool.and_eq_true_iff.1 hattaches
  rw [Bool.not_eq_true'] at hhas
  obtain ⟨o, trie, hinsert, -, hext, -⟩ :=
    hadds.insertPath (p := symbols.take uint32Max) (u := []) h.good h.tree rfl
  obtain ⟨w, hw, hno⟩ := hadds.insertPath_grown (u := []) h.good h.tree rfl hhas hgrows
  rw [hinsert] at hw ⊢
  obtain ⟨v, hv, hnew, hlast⟩ := exists_maximal hext.tree hw hno
  obtain ⟨k, hk⟩ := has_iff.1 hv
  have hmissing : walk M.store ac.trie v 0 = none :=
    Option.isNone_iff_eq_none.1 (Option.isSome_eq_false_iff.1 hnew)
  obtain ⟨hstart, hlink, -⟩ := hext.new v k hk hmissing
  have hroot : k ≠ 0 := by
    rintro rfl
    rw [hext.tree.unique v [] 0 hk rfl] at hmissing
    cases hmissing
  obtain ⟨rest, hrest⟩ := hstart.trans (List.take_prefix uint32Max symbols)
  obtain ⟨c, later, hcons⟩ : ∃ c later, rest ++ [d] = c :: later :=
    List.exists_cons_of_ne_nil (List.append_ne_nil_of_right_ne_nil rest (List.cons_ne_nil d []))
  have htext : symbols ++ [d] = v ++ c :: later := by
    rw [← hrest, List.append_assoc, hcons]
  have hchild : M.store.child trie k c = none := by
    have hstop := hlast c
    rw [has, walk_snoc_of_eq hk] at hstop
    exact Option.isNone_iff_eq_none.1 (Option.isSome_eq_false_iff.1 hstop)
  rw [htext]
  exact scan_unlinked (Nat.zero_lt_of_lt (hext.tree.lt_size v k hk)) hk hroot hlink hchild later reports

end Refused

def attaches (memory : Memory) (ac : ByteAutomaton) : Vstr → Bool
  | .null _ => false
  | .bytes pattern =>
      !(pattern.length = sizeMax ∨ pattern.length = 0 ∨ uint32Max < pattern.length ∨
        ac.nextPatternId = uint32Max) && byteMachine.attaches memory ac pattern

def attachesUtf8 (memory : Memory) (ac : Utf8Automaton) : Vstr → Bool
  | .null _ => false
  | .bytes pattern =>
      !(pattern.length = sizeMax ∨ !Utf8.valid pattern ∨ pattern.length = 0 ∨
        ac.nextPatternId = uint32Max) &&
        (Utf8.codePoints pattern).any (utf8Machine.attaches memory ac)

/-- Matching is still allowed, reports what it did, and leaves no node along a missing link. -/
def Undamaged {S : Type} (matchOf : Automaton S → Vstr → Except Failure (List Report))
    (ac ac' : Automaton S) : Prop :=
  ac'.built = true ∧ ∀ text, matchOf ac' text = matchOf ac text ∧ matchOf ac' text ≠ .error .wild

section Bytes

variable {ac ac' : ByteAutomaton} {patterns : List (List UInt8)} {memory : Memory} {v : Vstr}
  {e : AddError}

theorem undamaged_of_holds (h : Holds byteMachine ac patterns) (h' : Holds byteMachine ac' patterns)
    (hbuilt : ac.built = true) (hbuilt' : ac'.built = true) : Undamaged matchText ac ac' := by
  refine ⟨hbuilt', fun text => ?_⟩
  cases text with
  | null len =>
    rw [matchText, matchText, hbuilt, hbuilt']
    refine ⟨rfl, ?_⟩
    split_ifs <;> simp
  | bytes text =>
    have hmatch := h.matchSymbols hbuilt text
    have hmatch' := h'.matchSymbols hbuilt' text
    rw [matchText, matchText, hbuilt, hbuilt']
    exact ⟨hmatch'.trans hmatch.symm, fun hwild => by cases hmatch'.symm.trans hwild⟩

theorem addPattern_failure (h : Holds byteMachine ac patterns) (hbuilt : ac.built = true)
    (hadd : addPattern memory ac v = (.error e, ac')) :
    Undamaged matchText ac ac' ↔ attaches memory ac v = false := by
  cases v with
  | null len =>
    obtain ⟨-, rfl⟩ := Prod.mk.inj hadd
    exact iff_of_true (undamaged_of_holds h h hbuilt hbuilt) rfl
  | bytes pattern =>
    rw [addPattern] at hadd
    rw [attaches]
    split_ifs at hadd with hbad
    · obtain ⟨-, rfl⟩ := Prod.mk.inj hadd
      rw [decide_eq_true hbad]
      exact iff_of_true (undamaged_of_holds h h hbuilt hbuilt) rfl
    · rw [decide_eq_false hbad, Bool.not_false, Bool.true_and]
      cases hattaches : byteMachine.attaches memory ac pattern with
      | false =>
        obtain ⟨h', hsame⟩ := h.addSymbols_kept byteMachine_lawful hadd hattaches
        exact iff_of_true (undamaged_of_holds h h' hbuilt (hsame.trans hbuilt)) rfl
      | true =>
        refine iff_of_false (fun hstill => ?_) (by decide)
        have hsame := (hstill.2 (.bytes (pattern ++ [0]))).1
        rw [matchText, matchText, hbuilt, hstill.1] at hsame
        exact h.addSymbols_broken byteMachine_lawful hadd hattaches 0 _
          (hsame.trans (h.matchSymbols hbuilt _))

end Bytes

section CodePoints

variable {ac ac' : Utf8Automaton} {patterns : List (List UInt32)} {memory : Memory} {v : Vstr}
  {e : AddError}

theorem undamaged_of_holds_utf8 (h : Holds utf8Machine ac patterns)
    (h' : Holds utf8Machine ac' patterns) (hbuilt : ac.built = true) (hbuilt' : ac'.built = true) :
    Undamaged matchUtf8Text ac ac' := by
  refine ⟨hbuilt', fun text => ?_⟩
  cases text with
  | null len =>
    rw [matchUtf8Text, matchUtf8Text, hbuilt, hbuilt']
    refine ⟨rfl, ?_⟩
    split_ifs <;> simp
  | bytes text =>
    rw [matchUtf8Text, matchUtf8Text, hbuilt, hbuilt']
    cases hvalid : Utf8.valid text with
    | false => exact ⟨rfl, by simp⟩
    | true =>
      obtain ⟨cps, hcps⟩ := Utf8.valid_iff.1 hvalid
      have hmatch' := h'.matchSymbols hbuilt' cps
      rw [hcps]
      exact ⟨hmatch'.trans (h.matchSymbols hbuilt cps).symm,
        fun hwild => by cases hmatch'.symm.trans hwild⟩

theorem addUtf8Pattern_failure (h : Holds utf8Machine ac patterns) (hbuilt : ac.built = true)
    (hadd : addUtf8Pattern memory ac v = (.error e, ac')) :
    Undamaged matchUtf8Text ac ac' ↔ attachesUtf8 memory ac v = false := by
  cases v with
  | null len =>
    obtain ⟨-, rfl⟩ := Prod.mk.inj hadd
    exact iff_of_true (undamaged_of_holds_utf8 h h hbuilt hbuilt) rfl
  | bytes pattern =>
    rw [addUtf8Pattern] at hadd
    rw [attachesUtf8]
    split_ifs at hadd with hbad
    · obtain ⟨-, rfl⟩ := Prod.mk.inj hadd
      rw [decide_eq_true hbad]
      exact iff_of_true (undamaged_of_holds_utf8 h h hbuilt hbuilt) rfl
    · rw [decide_eq_false hbad, Bool.not_false, Bool.true_and]
      cases hcps : Utf8.codePoints pattern with
      | none =>
        rw [hcps] at hadd
        obtain ⟨-, rfl⟩ := Prod.mk.inj hadd
        exact iff_of_true (undamaged_of_holds_utf8 h h hbuilt hbuilt) rfl
      | some cps =>
        rw [hcps] at hadd
        rw [Option.any_some]
        cases hattaches : utf8Machine.attaches memory ac cps with
        | false =>
          obtain ⟨h', hsame⟩ := h.addSymbols_kept utf8Machine_lawful hadd hattaches
          exact iff_of_true (undamaged_of_holds_utf8 h h' hbuilt (hsame.trans hbuilt)) rfl
        | true =>
          refine iff_of_false (fun hstill => ?_) (by decide)
          have hsame := (hstill.2 (.bytes (pattern ++ [0]))).1
          have hconcat := Utf8.codePoints_concat hcps
          rw [matchUtf8Text, matchUtf8Text, hbuilt, hstill.1, Utf8.valid_iff.2 ⟨_, hconcat⟩,
            hconcat] at hsame
          exact h.addSymbols_broken utf8Machine_lawful hadd hattaches 0 _
            (hsame.trans (h.matchSymbols hbuilt _))

end CodePoints

/-- A refused pattern leaves a built automaton undamaged exactly where it linked no node into the
trie. -/
theorem add_failure (calls : List Call) (memory : Memory) (v : Vstr) :
    (∀ ids ac e ac', run byteStore addPattern calls byteInit = some (ids, ac) → ac.built = true →
      addPattern memory ac v = (.error e, ac') →
        (Undamaged matchText ac ac' ↔ attaches memory ac v = false)) ∧
    ∀ ids ac e ac', run utf8Store addUtf8Pattern calls utf8Init = some (ids, ac) → ac.built = true →
      addUtf8Pattern memory ac v = (.error e, ac') →
        (Undamaged matchUtf8Text ac ac' ↔ attachesUtf8 memory ac v = false) := by
  constructor
  · intro ids ac e ac' hrun hbuilt hadd
    obtain ⟨patterns, -, -, hholds, -⟩ :=
      run_holds byteMachine_lawful byte_spelled hrun byteInit_holds.1 byteInit_holds.2
    exact addPattern_failure hholds hbuilt hadd
  · intro ids ac e ac' hrun hbuilt hadd
    obtain ⟨patterns, -, -, hholds, -⟩ :=
      run_holds utf8Machine_lawful utf8_spelled hrun utf8Init_holds.1 utf8Init_holds.2
    exact addUtf8Pattern_failure hholds hbuilt hadd

def oneByte : List Call :=
  [.add ⟨fun _ => true, fun _ => true, fun _ => true⟩ (.bytes [97]), .build fun _ => true]

def oneNode : Memory := ⟨fun size => size < 3, fun _ => true, fun _ => true⟩

theorem oneByte_run : run byteStore addPattern oneByte byteInit =
    some ((run byteStore addPattern oneByte byteInit).getD ([], byteInit)) := by
  obtain ⟨r, hr⟩ : ∃ r, run byteStore addPattern oneByte byteInit = some r :=
    Option.isSome_iff_exists.1 (by decide)
  rw [hr]
  rfl

theorem add_failure_bc : ∃ ids ac e ac', run byteStore addPattern oneByte byteInit = some (ids, ac) ∧
    addPattern oneNode ac (.bytes [98, 99]) = (.error e, ac') ∧ ¬Undamaged matchText ac ac' := by
  have herror : (addPattern oneNode
      ((run byteStore addPattern oneByte byteInit).getD ([], byteInit)).2 (.bytes [98, 99])).1 =
        .error .storage := by decide
  have hattaches : attaches oneNode
      ((run byteStore addPattern oneByte byteInit).getD ([], byteInit)).2 (.bytes [98, 99]) = true := by
    decide
  refine ⟨_, _, _, _, oneByte_run, Prod.ext herror rfl, fun hstill => ?_⟩
  have hkept := ((add_failure _ _ _).1 _ _ _ _ oneByte_run (by decide)
    (Prod.ext herror rfl)).1 hstill
  exact Bool.false_ne_true (hkept.symm.trans hattaches)

/-- Behind a refused pattern, a text in which nothing was found leads to a missing link. -/
theorem add_failure_wild : ∃ ids ac e ac', run byteStore addPattern oneByte byteInit = some (ids, ac) ∧
    ac.built = true ∧ addPattern oneNode ac (.bytes [98, 99]) = (.error e, ac') ∧
    matchText ac (.bytes [98, 0]) = .ok [] ∧ matchText ac' (.bytes [98, 0]) = .error .wild := by
  have herror : (addPattern oneNode
      ((run byteStore addPattern oneByte byteInit).getD ([], byteInit)).2 (.bytes [98, 99])).1 =
        .error .storage := by decide
  refine ⟨_, _, _, _, oneByte_run, ?_, Prod.ext herror rfl, ?_, ?_⟩
  all_goals decide

end AcAutomaton
