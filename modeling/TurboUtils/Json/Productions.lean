import TurboUtils.Json.Tokens
import TurboUtils.Json.Decoding

/-! The productions of json_grammar.y give the values of RFC 8259. -/
namespace Json

section Grammar

variable {trailing : Bool} {token : Token} {rest : List Token}

/-! ## Which tokens stand side by side -/

/-- Tokens that stand side by side in a value are related. -/
structure Joins (trailing : Bool) (R : Token → Token → Prop) : Prop where
  bracket : ∀ {token next : Token}, token ∈ [.lbrace, .rbrace, .lbracket, .rbracket, .colon] →
    R token next
  scalar : ∀ {token next : Token}, token ≠ .comma → next.closes = true → R token next
  key : ∀ {raw : List Char} {hasEscape : Bool}, R (.string raw hasEscape) .colon
  comma : ∀ {next : Token}, trailing = true ∨ (next ≠ .rbracket ∧ next ≠ .rbrace) → R .comma next

def Parted (first second : Token) : Prop :=
  first = .comma → second ≠ .rbracket ∧ second ≠ .rbrace

theorem follows_joins : Joins trailing Follows where
  bracket h := by
    intro hword
    simp only [List.mem_cons, List.not_mem_nil, or_false] at h
    rcases h with rfl | rfl | rfl | rfl | rfl <;> cases hword
  scalar _ hclose _ := hclose
  key := nofun
  comma _ := nofun

theorem parted_joins : Joins false Parted where
  bracket h := by
    rintro rfl
    simp at h
  scalar hne _ hcomma := absurd hcomma hne
  key := nofun
  comma h _ := h.resolve_left nofun

theorem ValueOf.head {ts : List Token} {v : Value} (h : ValueOf trailing ts v) :
    ∃ token rest, ts = token :: rest ∧ token ≠ .rbracket ∧ token ≠ .rbrace := by
  cases h <;> exact ⟨_, _, rfl, nofun, nofun⟩

theorem ElementsOf.head {ts : List Token} {vs : List Value} (h : ElementsOf trailing ts vs) :
    ∃ token rest, ts = token :: rest ∧ token ≠ .rbracket ∧ token ≠ .rbrace := by
  cases h with
  | last h | trailing _ h | next h _ =>
    obtain ⟨token, rest, rfl, hne⟩ := h.head
    exact ⟨token, _, rfl, hne⟩

theorem MembersOf.head {ts : List Token} {members : List (List Char × Value)}
    (h : MembersOf trailing ts members) :
    ∃ token rest, ts = token :: rest ∧ token ≠ .rbracket ∧ token ≠ .rbrace := by
  cases h <;> exact ⟨_, _, rfl, nofun, nofun⟩

section Chain

variable {R : Token → Token → Prop} (hR : Joins trailing R)
include hR

theorem Joins.bracket_cons (h : token ∈ [.lbrace, .rbrace, .lbracket, .rbracket, .colon])
    (hrest : List.IsChain R rest) : List.IsChain R (token :: rest) :=
  List.isChain_cons.2 ⟨fun _ _ => hR.bracket h, hrest⟩

theorem Joins.scalar_cons (h : token ≠ .comma) (hclose : ∀ next ∈ rest.head?, next.closes = true)
    (hrest : List.IsChain R rest) : List.IsChain R (token :: rest) :=
  List.isChain_cons.2 ⟨fun next hnext => hR.scalar h (hclose next hnext), hrest⟩

theorem Joins.key_cons {raw : List Char} {hasEscape : Bool} (hrest : List.IsChain R rest) :
    List.IsChain R (.string raw hasEscape :: .colon :: rest) := by
  refine List.isChain_cons.2 ⟨fun next hnext => ?_, hR.bracket_cons (by simp) hrest⟩
  cases hnext
  exact hR.key

theorem Joins.comma_cons
    (h : trailing = true ∨ ∃ next tail, rest = next :: tail ∧ next ≠ .rbracket ∧ next ≠ .rbrace)
    (hrest : List.IsChain R rest) : List.IsChain R (.comma :: rest) := by
  refine List.isChain_cons.2 ⟨fun next hnext => hR.comma ?_, hrest⟩
  rcases h with h | ⟨first, tail, rfl, hne⟩
  · exact Or.inl h
  · cases hnext
    exact Or.inr hne

mutual

theorem Joins.value {ts rest : List Token} {v : Value} (h : ValueOf trailing ts v)
    (hclose : ∀ next ∈ rest.head?, next.closes = true) (hrest : List.IsChain R rest) :
    List.IsChain R (ts ++ rest) := by
  cases h with
  | null => exact hR.scalar_cons nofun hclose hrest
  | true => exact hR.scalar_cons nofun hclose hrest
  | false => exact hR.scalar_cons nofun hclose hrest
  | number lexeme => exact hR.scalar_cons nofun hclose hrest
  | string hasEscape h => exact hR.scalar_cons nofun hclose hrest
  | emptyArray => exact hR.bracket_cons (by simp) (hR.bracket_cons (by simp) hrest)
  | emptyObject => exact hR.bracket_cons (by simp) (hR.bracket_cons (by simp) hrest)
  | array h => exact hR.bracket_cons (by simp) (Joins.elements h hrest)
  | object h => exact hR.bracket_cons (by simp) (Joins.members h hrest)

theorem Joins.elements {ts rest : List Token} {vs : List Value} (h : ElementsOf trailing ts vs)
    (hrest : List.IsChain R rest) : List.IsChain R (ts ++ rest) := by
  have hbracket := hR.bracket_cons (show Token.rbracket ∈ _ by simp) hrest
  cases h with
  | last h =>
    rw [List.append_assoc]
    exact Joins.value h (by simp [Token.closes]) hbracket
  | trailing hcomma h =>
    rw [List.append_assoc]
    exact Joins.value h (by simp [Token.closes]) (hR.comma_cons (Or.inl hcomma) hbracket)
  | next h hnext =>
    obtain ⟨token, tail, htail, hne⟩ := hnext.head
    rw [List.append_assoc]
    exact Joins.value h (by simp [Token.closes])
      (hR.comma_cons (Or.inr ⟨token, _, by rw [htail]; rfl, hne⟩) (Joins.elements hnext hrest))

theorem Joins.members {ts rest : List Token} {members : List (List Char × Value)}
    (h : MembersOf trailing ts members) (hrest : List.IsChain R rest) :
    List.IsChain R (ts ++ rest) := by
  have hbrace := hR.bracket_cons (show Token.rbrace ∈ _ by simp) hrest
  cases h with
  | last _ h =>
    rw [List.cons_append, List.cons_append, List.append_assoc]
    exact hR.key_cons (Joins.value h (by simp [Token.closes]) hbrace)
  | trailing hcomma _ h =>
    rw [List.cons_append, List.cons_append, List.append_assoc]
    exact hR.key_cons (Joins.value h (by simp [Token.closes])
      (hR.comma_cons (Or.inl hcomma) hbrace))
  | next _ h hnext =>
    obtain ⟨token, tail, htail, hne⟩ := hnext.head
    rw [List.cons_append, List.cons_append, List.append_assoc]
    exact hR.key_cons (Joins.value h (by simp [Token.closes])
      (hR.comma_cons (Or.inr ⟨token, _, by rw [htail]; rfl, hne⟩) (Joins.members hnext hrest)))

end

end Chain

/-! ## A comma before a closing bracket is allowed, not asked for -/

mutual

theorem ValueOf.mono {ts : List Token} {v : Value} (h : ValueOf false ts v) :
    ValueOf trailing ts v := by
  cases h with
  | null => exact .null
  | true => exact .true
  | false => exact .false
  | number lexeme => exact .number lexeme
  | string hasEscape h => exact .string hasEscape h
  | emptyArray => exact .emptyArray
  | emptyObject => exact .emptyObject
  | array h => exact .array h.mono
  | object h => exact .object h.mono

theorem ElementsOf.mono {ts : List Token} {vs : List Value} (h : ElementsOf false ts vs) :
    ElementsOf trailing ts vs := by
  cases h with
  | last h => exact .last h.mono
  | trailing hcomma _ => cases hcomma
  | next h hnext => exact .next h.mono hnext.mono

theorem MembersOf.mono {ts : List Token} {members : List (List Char × Value)}
    (h : MembersOf false ts members) : MembersOf trailing ts members := by
  cases h with
  | last hkey h => exact .last hkey h.mono
  | trailing hcomma _ _ => cases hcomma
  | next hkey h hnext => exact .next hkey h.mono hnext.mono

end

theorem not_parted {ts rest : List Token} {token : Token} (h : token = .rbracket ∨ token = .rbrace) :
    ¬List.IsChain Parted (ts ++ .comma :: token :: rest) := by
  intro hchain
  have hparted := (List.isChain_cons_cons.1 hchain.right_of_append).1 rfl
  rcases h with rfl | rfl
  · exact hparted.1 rfl
  · exact hparted.2 rfl

mutual

theorem ValueOf.strict {ts : List Token} {v : Value} (h : ValueOf true ts v)
    (hparted : List.IsChain Parted ts) : ValueOf false ts v := by
  cases h with
  | null => exact .null
  | true => exact .true
  | false => exact .false
  | number lexeme => exact .number lexeme
  | string hasEscape h => exact .string hasEscape h
  | emptyArray => exact .emptyArray
  | emptyObject => exact .emptyObject
  | array h => exact .array (h.strict hparted.of_cons)
  | object h => exact .object (h.strict hparted.of_cons)

theorem ElementsOf.strict {ts : List Token} {vs : List Value} (h : ElementsOf true ts vs)
    (hparted : List.IsChain Parted ts) : ElementsOf false ts vs := by
  cases h with
  | last h => exact .last (h.strict hparted.left_of_append)
  | trailing _ _ => exact absurd hparted (not_parted (Or.inl rfl))
  | next h hnext =>
    exact .next (h.strict hparted.left_of_append) (hnext.strict hparted.right_of_append.of_cons)

theorem MembersOf.strict {ts : List Token} {members : List (List Char × Value)}
    (h : MembersOf true ts members) (hparted : List.IsChain Parted ts) :
    MembersOf false ts members := by
  cases h with
  | last hkey h => exact .last hkey (h.strict hparted.of_cons.of_cons.left_of_append)
  | trailing _ _ _ => exact absurd hparted.of_cons.of_cons (not_parted (Or.inr rfl))
  | next hkey h hnext =>
    exact .next hkey (h.strict hparted.of_cons.of_cons.left_of_append)
      (hnext.strict hparted.of_cons.of_cons.right_of_append.of_cons)

end

/-! ## The productions give values -/

/-- A list whose next comma is followed by another list of members. -/
def LeadsMembers (ts : List Token) (members : List (List Char × Value)) : Prop :=
  MembersOf false (ts ++ [.rbrace]) members ∧ ∀ rest more, MembersOf false rest more →
    MembersOf false (ts ++ .comma :: rest) (members ++ more)

def LeadsElements (ts : List Token) (vs : List Value) : Prop :=
  ElementsOf false (ts ++ [.rbracket]) vs ∧ ∀ rest more, ElementsOf false rest more →
    ElementsOf false (ts ++ .comma :: rest) (vs ++ more)

mutual

theorem DomValue.valueOf {ts : List Token} {v : Value} :
    DomValue ts v → (∀ t ∈ ts, t.Scanned) → ValueOf false ts v
  | .object h, hscanned => h.valueOf hscanned
  | .array h, hscanned => h.valueOf hscanned
  | .string h, hscanned =>
    .string _ ((Machine.text_ok (hscanned _ (List.mem_singleton_self _))).1 h)
  | .number lexeme, _ => .number lexeme
  | .true, _ => .true
  | .false, _ => .false
  | .null, _ => .null

theorem DomObject.valueOf {ts : List Token} {members : List (List Char × Value)} :
    DomObject ts members → (∀ t ∈ ts, t.Scanned) → ValueOf false ts (.object members)
  | .empty, _ => .emptyObject
  | .members h, hscanned => .object (h.leads fun t ht => hscanned t (by simp [ht])).1

theorem DomMembers.leads {ts : List Token} {members : List (List Char × Value)} :
    DomMembers ts members → (∀ t ∈ ts, t.Scanned) → LeadsMembers ts members
  | .pair h, hscanned => h.leads hscanned
  | .comma h hpair, hscanned => by
    have hfirst := h.leads fun t ht => hscanned t (by simp [ht])
    have hlast := hpair.leads fun t ht => hscanned t (by simp [ht])
    refine ⟨?_, fun rest more hmore => ?_⟩
    · rw [List.append_assoc]
      exact hfirst.2 _ _ hlast.1
    · rw [List.append_assoc, List.append_assoc]
      exact hfirst.2 _ _ (hlast.2 _ _ hmore)

theorem DomPair.leads {ts : List Token} {member : List Char × Value} :
    DomPair ts member → (∀ t ∈ ts, t.Scanned) → LeadsMembers ts [member]
  | .mk hkey h, hscanned => by
    have hdecodes := (Machine.text_ok (hscanned _ List.mem_cons_self)).1 hkey
    have hvalue := h.valueOf fun t ht => hscanned t (by simp [ht])
    exact ⟨.last hdecodes hvalue, fun rest more hmore => .next hdecodes hvalue hmore⟩

theorem DomArray.valueOf {ts : List Token} {vs : List Value} :
    DomArray ts vs → (∀ t ∈ ts, t.Scanned) → ValueOf false ts (.array vs)
  | .empty, _ => .emptyArray
  | .elements h, hscanned => .array (h.leads fun t ht => hscanned t (by simp [ht])).1

theorem DomElements.leads {ts : List Token} {vs : List Value} :
    DomElements ts vs → (∀ t ∈ ts, t.Scanned) → LeadsElements ts vs
  | .value h, hscanned =>
    ⟨.last (h.valueOf hscanned), fun _ _ hmore => .next (h.valueOf hscanned) hmore⟩
  | .comma h hlast, hscanned => by
    have hfirst := h.leads fun t ht => hscanned t (by simp [ht])
    have hvalue := hlast.valueOf fun t ht => hscanned t (by simp [ht])
    refine ⟨?_, fun rest more hmore => ?_⟩
    · rw [List.append_assoc]
      exact hfirst.2 _ _ (.last hvalue)
    · rw [List.append_assoc, List.append_assoc]
      exact hfirst.2 _ _ (.next hvalue hmore)

end

/-! ## Values have productions -/

theorem DomElements.cons {ts body : List Token} {v : Value} {vs : List Value} (h : DomValue ts v) :
    DomElements body vs → DomElements (ts ++ .comma :: body) (v :: vs)
  | .value hv => .comma (.value h) hv
  | .comma hbody hv => by
    have hcons := (DomElements.cons h hbody).comma hv
    rwa [List.append_assoc] at hcons

theorem DomMembers.cons {ts body : List Token} {member : List Char × Value}
    {members : List (List Char × Value)} (h : DomPair ts member) :
    DomMembers body members → DomMembers (ts ++ .comma :: body) (member :: members)
  | .pair hpair => .comma (.pair h) hpair
  | .comma hbody hpair => by
    have hcons := (DomMembers.cons h hbody).comma hpair
    rwa [List.append_assoc] at hcons

mutual

theorem ValueOf.domValue {ts : List Token} {v : Value} (h : ValueOf false ts v)
    (hscanned : ∀ t ∈ ts, t.Scanned) : DomValue ts v := by
  cases h with
  | null => exact .null
  | true => exact .true
  | false => exact .false
  | number lexeme => exact .number lexeme
  | string hasEscape h =>
    exact .string ((Machine.text_ok (hscanned _ (List.mem_singleton_self _))).2 h)
  | emptyArray => exact .array .empty
  | emptyObject => exact .object .empty
  | array h =>
    obtain ⟨body, rfl, hbody⟩ := h.domElements fun t ht => hscanned t (List.mem_cons_of_mem _ ht)
    exact .array (.elements hbody)
  | object h =>
    obtain ⟨body, rfl, hbody⟩ := h.domMembers fun t ht => hscanned t (List.mem_cons_of_mem _ ht)
    exact .object (.members hbody)

theorem ElementsOf.domElements {ts : List Token} {vs : List Value} (h : ElementsOf false ts vs)
    (hscanned : ∀ t ∈ ts, t.Scanned) : ∃ body, ts = body ++ [.rbracket] ∧ DomElements body vs := by
  cases h with
  | last h => exact ⟨_, rfl, .value (h.domValue fun t ht => hscanned t (by simp [ht]))⟩
  | trailing hcomma _ => cases hcomma
  | next h hnext =>
    obtain ⟨body, rfl, hbody⟩ := hnext.domElements fun t ht => hscanned t (by simp [ht])
    exact ⟨_, by simp, .cons (h.domValue fun t ht => hscanned t (by simp [ht])) hbody⟩

theorem MembersOf.domMembers {ts : List Token} {members : List (List Char × Value)}
    (h : MembersOf false ts members) (hscanned : ∀ t ∈ ts, t.Scanned) :
    ∃ body, ts = body ++ [.rbrace] ∧ DomMembers body members := by
  cases h with
  | last hkey h =>
    have htext := (Machine.text_ok (hscanned _ List.mem_cons_self)).2 hkey
    exact ⟨_, by simp, .pair (.mk htext (h.domValue fun t ht => hscanned t (by simp [ht])))⟩
  | trailing hcomma _ _ => cases hcomma
  | next hkey h hnext =>
    have htext := (Machine.text_ok (hscanned _ List.mem_cons_self)).2 hkey
    obtain ⟨body, rfl, hbody⟩ := hnext.domMembers fun t ht => hscanned t (by simp [ht])
    have hpair := DomPair.mk htext (h.domValue fun t ht => hscanned t (by simp [ht]))
    exact ⟨_, by simp, .cons hpair hbody⟩

end

theorem domValue_iff {ts : List Token} {v : Value} (hscanned : ∀ t ∈ ts, t.Scanned) :
    DomValue ts v ↔ ValueOf false ts v :=
  ⟨fun h => h.valueOf hscanned, fun h => h.domValue hscanned⟩

end Grammar

end Json
