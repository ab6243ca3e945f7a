import TurboUtils.Json.Decoding
import TurboUtils.Lib.Fallible

/-! The push-down machine reads the tokens of a value, and no others. -/
namespace Json

namespace Machine

/-- A value may stand here. -/
structure Awaits (m : Machine) : Prop where
  place : (m.state = .value ∧ m.stack = []) ∨
    (m.state = .objectValue ∨ m.state = .arrayValue) ∧ m.rootSeen = true
  undone : m.done = false

def complete (m : Machine) (es : List Event) : Machine :=
  { m with events := m.events ++ es }.markValueComplete

def outer (m : Machine) : SaxState :=
  if m.state = .objectValue then .objectComma
  else if m.state = .arrayValue then .arrayComma
  else .value

def inElements (stack : List SaxState) (es : List Event) : Machine :=
  ⟨stack, .arrayValue, true, false, es⟩

def inMembers (stack : List SaxState) (es : List Event) : Machine :=
  ⟨stack, .objectKey, true, false, es⟩

def inMember (stack : List SaxState) (es : List Event) : Machine :=
  ⟨stack, .objectValue, true, false, es⟩

def closed (stack : List SaxState) (es : List Event) : Machine :=
  afterContainerEnd ⟨stack, .value, true, false, es⟩

variable {m : Machine} {stack : List SaxState} {es : List Event}

theorem inElements_awaits (stack : List SaxState) (es : List Event) : (inElements stack es).Awaits := ⟨Or.inr ⟨Or.inr rfl, rfl⟩, rfl⟩

theorem inMember_awaits (stack : List SaxState) (es : List Event) : (inMember stack es).Awaits := ⟨Or.inr ⟨Or.inl rfl, rfl⟩, rfl⟩

theorem init_awaits : init.Awaits := ⟨Or.inl ⟨rfl, rfl⟩, rfl⟩

theorem Awaits.processToken (h : m.Awaits) (token : Token) :
    m.processToken token = m.processValue token := by
  unfold Machine.processToken
  rw [if_neg (by simp [h.undone])]
  rcases h.place with ⟨hstate, -⟩ | ⟨hstate | hstate, -⟩ <;> rw [hstate]

theorem Awaits.closed (h : m.Awaits) (es : List Event) :
    closed (m.outer :: m.stack) (m.events ++ es) = m.complete es := by
  obtain ⟨stack, state, rootSeen, done, events⟩ := m
  obtain ⟨hplace, hdone⟩ := h
  dsimp only at hplace hdone
  subst hdone
  rcases hplace with ⟨rfl, rfl⟩ | ⟨rfl | rfl, rfl⟩
  · rfl
  · simp [Machine.closed, outer, afterContainerEnd, complete, markValueComplete]
  · simp [Machine.closed, outer, afterContainerEnd, complete, markValueComplete]

theorem Awaits.pushContainer (h : m.Awaits) (event : Event) (next : SaxState) :
    (m.emit event).pushContainer next =
      if saxMaxDepth ≤ m.stack.length then .error "Max depth exceeded"
      else .ok ⟨m.outer :: m.stack, next, true, false, m.events ++ [event]⟩ := by
  rw [Machine.pushContainer]
  simp only [emit, h.undone, outer]

theorem processToken_rbracket {state : SaxState} (h : state = .arrayValue ∨ state = .arrayComma) :
    processToken ⟨stack, state, true, false, es⟩ .rbracket =
      .ok (closed stack (es ++ [.arrayEnd])) := by
  rcases h with rfl | rfl <;> rfl

theorem processToken_rbrace {state : SaxState} (h : state = .objectKey ∨ state = .objectComma) :
    processToken ⟨stack, state, true, false, es⟩ .rbrace =
      .ok (closed stack (es ++ [.objectEnd])) := by
  rcases h with rfl | rfl <;> rfl

theorem processToken_elementComma : processToken ⟨stack, .arrayComma, true, false, es⟩ .comma =
    .ok (inElements stack es) := rfl

theorem processToken_memberComma : processToken ⟨stack, .objectComma, true, false, es⟩ .comma =
    .ok (inMembers stack es) := rfl

end Machine

open Machine

/-! ## Values are read -/

section Reading

variable {m m' : Machine} {stack : List SaxState} {es : List Event} {token : Token}
  {ts first rest : List Token} {v : Value}

theorem foldlM_cons_ok (h : m.processToken token = .ok m') :
    (token :: ts).foldlM processToken m = ts.foldlM processToken m' := by
  rw [List.foldlM_cons, h]
  rfl

theorem foldlM_append_ok (h : first.foldlM processToken m = .ok m') :
    (first ++ rest).foldlM processToken m = rest.foldlM processToken m' := by
  rw [List.foldlM_append, h]
  rfl

theorem foldlM_singleton_ok (h : m.processToken token = .ok m') :
    [token].foldlM processToken m = .ok m' := foldlM_cons_ok h

theorem foldlM_key {raw key : List Char} {hasEscape : Bool} (hkey : Decodes raw key)
    (hscanned : (Token.string raw hasEscape).Scanned) :
    (.string raw hasEscape :: .colon :: ts).foldlM processToken (inMembers stack es) =
      ts.foldlM processToken (inMember stack (es ++ [.objectKey key])) := by
  have hprocess : (inMembers stack es).processToken (.string raw hasEscape) =
      .ok ⟨stack, .objectColon, true, false, es ++ [.objectKey key]⟩ := by
    change (text raw hasEscape).map _ = _
    rw [(text_ok hscanned).2 hkey]
    rfl
  rw [foldlM_cons_ok hprocess]
  exact foldlM_cons_ok rfl

theorem run_container {event : Event} {state : SaxState} (hm : m.Awaits)
    (hdepth : m.stack.length < saxMaxDepth)
    (hopen : m.processValue token = (m.emit event).pushContainer state)
    (hrest : ts.foldlM processToken
      ⟨m.outer :: m.stack, state, true, false, m.events ++ [event]⟩ =
        .ok (closed (m.outer :: m.stack) (m.events ++ [event] ++ es))) :
    (token :: ts).foldlM processToken m = .ok (m.complete (event :: es)) := by
  have hprocess := (hm.processToken token).trans (hopen.trans (hm.pushContainer event state))
  rw [if_neg (Nat.not_le.2 hdepth)] at hprocess
  rw [foldlM_cons_ok hprocess, hrest, List.append_assoc, List.singleton_append, hm.closed]

mutual

theorem ValueOf.run {ts : List Token} {v : Value} (h : ValueOf true ts v) {m : Machine}
    (hm : m.Awaits) (hdepth : m.stack.length + v.depth ≤ saxMaxDepth)
    (hscanned : ∀ t ∈ ts, t.Scanned) :
    ts.foldlM processToken m = .ok (m.complete (v.events id)) := by
  cases h with
  | null => exact foldlM_singleton_ok (hm.processToken _)
  | true => exact foldlM_singleton_ok (hm.processToken _)
  | false => exact foldlM_singleton_ok (hm.processToken _)
  | number lexeme => exact foldlM_singleton_ok (hm.processToken _)
  | string hasEscape h =>
    apply foldlM_singleton_ok
    rw [hm.processToken, processValue, (text_ok (hscanned _ (List.mem_singleton_self _))).2 h]
    rfl
  | emptyArray =>
    rw [Value.depth] at hdepth
    exact run_container hm (by omega) rfl (foldlM_singleton_ok (processToken_rbracket (Or.inl rfl)))
  | emptyObject =>
    rw [Value.depth] at hdepth
    exact run_container hm (by omega) rfl (foldlM_singleton_ok (processToken_rbrace (Or.inl rfl)))
  | array h =>
    rw [Value.depth] at hdepth
    exact run_container hm (by omega) rfl (h.run _ (by rw [List.length_cons]; omega)
      fun t ht => hscanned t (List.mem_cons_of_mem _ ht))
  | object h =>
    rw [Value.depth] at hdepth
    exact run_container hm (by omega) rfl (h.run _ (by rw [List.length_cons]; omega)
      fun t ht => hscanned t (List.mem_cons_of_mem _ ht))

theorem ElementsOf.run {ts : List Token} {vs : List Value} (h : ElementsOf true ts vs)
    {stack : List SaxState} (es : List Event)
    (hdepth : stack.length + elementsDepth vs ≤ saxMaxDepth) (hscanned : ∀ t ∈ ts, t.Scanned) :
    ts.foldlM processToken (inElements stack es) =
      .ok (closed stack (es ++ (elementsEvents id vs ++ [.arrayEnd]))) := by
  cases h with
  | last h =>
    rw [elementsDepth] at hdepth
    have hvalue := h.run (inElements_awaits stack es)
      (le_trans (Nat.add_le_add_left (le_max_left _ _) _) hdepth)
      (fun t ht => hscanned t (List.mem_append_left _ ht))
    rw [foldlM_append_ok hvalue, elementsEvents, elementsEvents, List.append_nil,
      ← List.append_assoc]
    exact foldlM_singleton_ok (processToken_rbracket (Or.inr rfl))
  | trailing _ h =>
    rw [elementsDepth] at hdepth
    have hvalue := h.run (inElements_awaits stack es)
      (le_trans (Nat.add_le_add_left (le_max_left _ _) _) hdepth)
      (fun t ht => hscanned t (List.mem_append_left _ ht))
    rw [foldlM_append_ok hvalue, elementsEvents, elementsEvents, List.append_nil,
      ← List.append_assoc]
    exact (foldlM_cons_ok processToken_elementComma).trans
      (foldlM_singleton_ok (processToken_rbracket (Or.inl rfl)))
  | @next _ _ value _ h hrest =>
    rw [elementsDepth] at hdepth
    have hvalue := h.run (inElements_awaits stack es)
      (le_trans (Nat.add_le_add_left (le_max_left _ _) _) hdepth)
      (fun t ht => hscanned t (List.mem_append_left _ ht))
    have hvalues := hrest.run (es ++ value.events id)
      (le_trans (Nat.add_le_add_left (le_max_right _ _) _) hdepth)
      (fun t ht => hscanned t (List.mem_append_right _ (List.mem_cons_of_mem _ ht)))
    rw [foldlM_append_ok hvalue, elementsEvents, List.append_assoc, ← List.append_assoc es]
    exact (foldlM_cons_ok processToken_elementComma).trans hvalues

theorem MembersOf.run {ts : List Token} {members : List (List Char × Value)}
    (h : MembersOf true ts members) {stack : List SaxState} (es : List Event)
    (hdepth : stack.length + membersDepth members ≤ saxMaxDepth) (hscanned : ∀ t ∈ ts, t.Scanned) :
    ts.foldlM processToken (inMembers stack es) =
      .ok (closed stack (es ++ (membersEvents id members ++ [.objectEnd]))) := by
  cases h with
  | @last _ key _ _ _ hkey h =>
    rw [membersDepth] at hdepth
    have hvalue := h.run (inMember_awaits stack (es ++ [.objectKey key]))
      (le_trans (Nat.add_le_add_left (le_max_left _ _) _) hdepth)
      (fun t ht => hscanned t (by simp [ht]))
    rw [foldlM_key hkey (hscanned _ List.mem_cons_self), foldlM_append_ok hvalue, membersEvents,
      membersEvents, List.append_nil]
    exact (foldlM_singleton_ok (processToken_rbrace (Or.inr rfl))).trans (by simp [inMember])
  | @trailing _ key _ _ _ _ hkey h =>
    rw [membersDepth] at hdepth
    have hvalue := h.run (inMember_awaits stack (es ++ [.objectKey key]))
      (le_trans (Nat.add_le_add_left (le_max_left _ _) _) hdepth)
      (fun t ht => hscanned t (by simp [ht]))
    rw [foldlM_key hkey (hscanned _ List.mem_cons_self), foldlM_append_ok hvalue, membersEvents,
      membersEvents, List.append_nil]
    exact ((foldlM_cons_ok processToken_memberComma).trans
      (foldlM_singleton_ok (processToken_rbrace (Or.inl rfl)))).trans (by simp [inMember])
  | @next _ key _ _ _ value _ hkey h hrest =>
    rw [membersDepth] at hdepth
    have hvalue := h.run (inMember_awaits stack (es ++ [.objectKey key]))
      (le_trans (Nat.add_le_add_left (le_max_left _ _) _) hdepth)
      (fun t ht => hscanned t (by simp [ht]))
    have hmembers := hrest.run (es ++ [.objectKey key] ++ value.events id)
      (le_trans (Nat.add_le_add_left (le_max_right _ _) _) hdepth)
      (fun t ht => hscanned t (by simp [ht]))
    rw [foldlM_key hkey (hscanned _ List.mem_cons_self), foldlM_append_ok hvalue, membersEvents]
    exact ((foldlM_cons_ok processToken_memberComma).trans hmembers).trans (by simp)

end

end Reading

/-! ## Only values are read -/

def ReadsValue (ts : List Token) : Prop :=
  ∀ m m' : Machine, m.Awaits → (m.state = .arrayValue → ts.head? ≠ some .rbracket) →
    ts.foldlM processToken m = .ok m' → m'.done = true →
    ∃ first rest v, ts = first ++ rest ∧ ValueOf true first v ∧
      rest.foldlM processToken (m.complete (v.events id)) = .ok m'

def ReadsElements (ts : List Token) : Prop :=
  ∀ (stack : List SaxState) (es : List Event) (m' : Machine),
    ts.foldlM processToken (inElements stack es) = .ok m' → m'.done = true →
    ∃ first rest vs, ts = first ++ rest ∧
      ((first = [.rbracket] ∧ vs = []) ∨ ElementsOf true first vs) ∧
      rest.foldlM processToken (closed stack (es ++ (elementsEvents id vs ++ [.arrayEnd]))) = .ok m'

def ReadsMembers (ts : List Token) : Prop :=
  ∀ (stack : List SaxState) (es : List Event) (m' : Machine),
    ts.foldlM processToken (inMembers stack es) = .ok m' → m'.done = true →
    ∃ first rest members, ts = first ++ rest ∧
      ((first = [.rbrace] ∧ members = []) ∨ MembersOf true first members) ∧
      rest.foldlM processToken (closed stack (es ++ (membersEvents id members ++ [.objectEnd]))) =
        .ok m'

section Sound

variable {m m' : Machine} {token : Token} {ts : List Token}

theorem foldlM_undone (hdone : m.done = false) (h : ts.foldlM processToken m = .ok m')
    (hdone' : m'.done = true) : ∃ token rest m₁, ts = token :: rest ∧ m.processToken token = .ok m₁ ∧
      rest.foldlM processToken m₁ = .ok m' := by
  cases ts with
  | nil =>
    cases h
    rw [hdone] at hdone'
    cases hdone'
  | cons token rest =>
    rw [List.foldlM_cons] at h
    cases hprocess : m.processToken token with
    | error message =>
      rw [hprocess] at h
      cases h
    | ok m₁ =>
      rw [hprocess] at h
      exact ⟨token, rest, m₁, rfl, hprocess, h⟩

theorem text_map {raw : List Char} {hasEscape : Bool} {f : List Char → Machine}
    (hscanned : (Token.string raw hasEscape).Scanned) (h : (text raw hasEscape).map f = .ok m) :
    ∃ s, Decodes raw s ∧ f s = m := by
  obtain ⟨s, hs, hm⟩ := Fallible.map_eq_ok.1 h
  exact ⟨s, (text_ok hscanned).1 hs, hm⟩

theorem readsValue (hscanned : ∀ t ∈ ts, t.Scanned)
    (hshort : ∀ rest, rest.length < ts.length → (∀ t ∈ rest, t.Scanned) →
      ReadsElements rest ∧ ReadsMembers rest) : ReadsValue ts := by
  intro m m' hm hbracket hrun hdone
  obtain ⟨token, rest, m₁, rfl, hprocess, hrun⟩ := foldlM_undone hm.undone hrun hdone
  have hrest := hshort rest (Nat.lt_succ_self _) fun t ht => hscanned t (List.mem_cons_of_mem _ ht)
  rw [hm.processToken] at hprocess
  cases token with
  | null =>
    cases hprocess
    exact ⟨[.null], rest, .null, rfl, .null, hrun⟩
  | true =>
    cases hprocess
    exact ⟨[.true], rest, .bool true, rfl, .true, hrun⟩
  | false =>
    cases hprocess
    exact ⟨[.false], rest, .bool false, rfl, .false, hrun⟩
  | number lexeme =>
    cases hprocess
    exact ⟨[.number lexeme], rest, .number lexeme, rfl, .number lexeme, hrun⟩
  | string raw hasEscape =>
    obtain ⟨s, hs, rfl⟩ := text_map (hscanned _ List.mem_cons_self) hprocess
    exact ⟨[.string raw hasEscape], rest, .string s, rfl, .string hasEscape hs, hrun⟩
  | lbracket =>
    rw [processValue, hm.pushContainer] at hprocess
    split_ifs at hprocess
    cases hprocess
    obtain ⟨first, tail, vs, rfl, hfirst, htail⟩ := hrest.1 _ _ _ hrun hdone
    refine ⟨.lbracket :: first, tail, .array vs, rfl, ?_, ?_⟩
    · rcases hfirst with ⟨rfl, rfl⟩ | hfirst
      · exact .emptyArray
      · exact .array hfirst
    · rwa [List.append_assoc, hm.closed] at htail
  | lbrace =>
    rw [processValue, hm.pushContainer] at hprocess
    split_ifs at hprocess
    cases hprocess
    obtain ⟨first, tail, members, rfl, hfirst, htail⟩ := hrest.2 _ _ _ hrun hdone
    refine ⟨.lbrace :: first, tail, .object members, rfl, ?_, ?_⟩
    · rcases hfirst with ⟨rfl, rfl⟩ | hfirst
      · exact .emptyObject
      · exact .object hfirst
    · rwa [List.append_assoc, hm.closed] at htail
  | rbracket =>
    rw [processValue] at hprocess
    split_ifs at hprocess with hstate
    exact absurd rfl (hbracket hstate)
  | rbrace =>
    rw [processValue] at hprocess
    split_ifs at hprocess
  | colon => cases hprocess
  | comma => cases hprocess

theorem readsElements (hvalue : ReadsValue ts)
    (hshort : ∀ rest, rest.length < ts.length → (∀ t ∈ rest, t ∈ ts) → ReadsElements rest) :
    ReadsElements ts := by
  intro stack es m' hrun hdone
  by_cases hbracket : ts.head? = some .rbracket
  · obtain ⟨rest, rfl⟩ := List.head?_eq_some_iff.1 hbracket
    exact ⟨[.rbracket], rest, [], rfl, Or.inl ⟨rfl, rfl⟩, hrun⟩
  · obtain ⟨first, tail, v, rfl, hfirst, htail⟩ :=
      hvalue _ _ (inElements_awaits stack es) (fun _ => hbracket) hrun hdone
    obtain ⟨token, rest, m₁, rfl, hprocess, hrest⟩ := foldlM_undone rfl htail hdone
    have hprocess' : processToken ⟨stack, .arrayComma, true, false, es ++ v.events id⟩ token =
      .ok m₁ := hprocess
    cases token with
    | comma =>
      cases hprocess'
      obtain ⟨next, rest, vs, rfl, hnext, hrest⟩ := hshort rest (by simp; omega)
        (fun t ht => by simp [ht]) _ _ _ hrest hdone
      refine ⟨first ++ .comma :: next, rest, v :: vs, by simp, Or.inr ?_, ?_⟩
      · rcases hnext with ⟨rfl, rfl⟩ | hnext
        · exact .trailing rfl hfirst
        · exact .next hfirst hnext
      · rwa [elementsEvents, List.append_assoc, ← List.append_assoc es]
    | rbracket =>
      cases hprocess'
      refine ⟨first ++ [.rbracket], rest, [v], by simp, Or.inr (.last hfirst), ?_⟩
      rw [elementsEvents, elementsEvents, List.append_nil, ← List.append_assoc]
      exact hrest
    | _ => cases hprocess'

theorem readsMembers (hscanned : ∀ t ∈ ts, t.Scanned)
    (hshort : ∀ rest, rest.length < ts.length → (∀ t ∈ rest, t.Scanned) →
      ReadsValue rest ∧ ReadsMembers rest) : ReadsMembers ts := by
  intro stack es m' hrun hdone
  obtain ⟨token, rest, m₁, rfl, hprocess, hrun⟩ := foldlM_undone rfl hrun hdone
  cases token with
  | rbrace =>
    cases hprocess
    exact ⟨[.rbrace], rest, [], rfl, Or.inl ⟨rfl, rfl⟩, hrun⟩
  | string raw hasEscape =>
    obtain ⟨key, hkey, rfl⟩ := text_map (hscanned _ List.mem_cons_self) hprocess
    obtain ⟨token, rest, m₂, rfl, hcolon, hrun⟩ := foldlM_undone rfl hrun hdone
    have hcolon' : (if token = .colon then .ok (inMember stack (es ++ [.objectKey key]))
      else .error "Expected :") = Except.ok m₂ := hcolon
    split_ifs at hcolon' with htoken
    cases hcolon'
    obtain ⟨first, tail, v, rfl, hfirst, htail⟩ := (hshort rest (by simp)
      fun t ht => hscanned t (by simp [ht])).1 _ _ (inMember_awaits _ _) nofun hrun hdone
    obtain ⟨token, rest, m₁, rfl, hprocess, hrest⟩ := foldlM_undone rfl htail hdone
    have hprocess' : processToken
      ⟨stack, .objectComma, true, false, es ++ [.objectKey key] ++ v.events id⟩ token = .ok m₁ :=
        hprocess
    cases token with
    | comma =>
      cases hprocess'
      obtain ⟨next, rest, members, rfl, hnext, hrest⟩ := (hshort rest (by simp; omega)
        fun t ht => hscanned t (by simp [ht])).2 _ _ _ hrest hdone
      refine ⟨.string raw hasEscape :: .colon :: (first ++ .comma :: next), rest,
        (key, v) :: members, by simp [htoken], Or.inr ?_, ?_⟩
      · rcases hnext with ⟨rfl, rfl⟩ | hnext
        · exact .trailing rfl hkey hfirst
        · exact .next hkey hfirst hnext
      · rw [membersEvents]
        simpa using hrest
    | rbrace =>
      cases hprocess'
      refine ⟨.string raw hasEscape :: .colon :: (first ++ [.rbrace]), rest, [(key, v)],
        by simp [htoken], Or.inr (.last hkey hfirst), ?_⟩
      have hclosed : rest.foldlM processToken
        (closed stack (es ++ [.objectKey key] ++ v.events id ++ [.objectEnd])) = .ok m' := hrest
      rw [membersEvents, membersEvents, List.append_nil]
      simpa using hclosed
    | _ => cases hprocess'
  | _ => cases hprocess

theorem reads_all (ts : List Token) (hscanned : ∀ t ∈ ts, t.Scanned) :
    ReadsValue ts ∧ ReadsElements ts ∧ ReadsMembers ts := by
  induction hlen : ts.length using Nat.strong_induction_on generalizing ts with
  | _ n ih =>
    subst hlen
    have hshort (rest : List Token) (hlt : rest.length < ts.length)
        (hrest : ∀ t ∈ rest, t.Scanned) := ih rest.length hlt rest hrest rfl
    have hvalue := readsValue hscanned fun rest hlt hrest => (hshort rest hlt hrest).2
    have helements := readsElements hvalue fun rest hlt hmem =>
      (hshort rest hlt fun t ht => hscanned t (hmem t ht)).2.1
    have hmembers := readsMembers hscanned fun rest hlt hrest =>
      ⟨(hshort rest hlt hrest).1, (hshort rest hlt hrest).2.2⟩
    exact ⟨hvalue, helements, hmembers⟩

end Sound

/-- The machine ends done exactly when it has read a value, and its calls are those of the value. -/
theorem run_done_iff {ts : List Token} (hscanned : ∀ t ∈ ts, t.Scanned)
    (hdepth : ∀ v, ValueOf true ts v → v.depth ≤ saxMaxDepth) (es : List Event) :
    (∃ m, ts.foldlM processToken init = .ok m ∧ m.done = true ∧ m.events = es) ↔
      ∃ v, ValueOf true ts v ∧ v.events id = es := by
  constructor
  · rintro ⟨m, hrun, hdone, rfl⟩
    obtain ⟨first, rest, v, rfl, hv, hrest⟩ :=
      (reads_all ts hscanned).1 _ _ init_awaits nofun hrun hdone
    cases rest with
    | nil =>
      cases hrest
      rw [List.append_nil]
      exact ⟨v, hv, rfl⟩
    | cons token rest => cases hrest
  · rintro ⟨v, hv, rfl⟩
    exact ⟨_, hv.run init_awaits (by simpa [init] using hdepth v hv) hscanned, rfl, rfl⟩

end Json
