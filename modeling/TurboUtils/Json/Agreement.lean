import TurboUtils.Json.Productions
import TurboUtils.Json.Pushdown

/-! The two parsers side by side: where they accept the same texts and give the same values. -/
namespace Json

/-! ## What a traversal shows of the numbers -/

section Traversal

variable {f g : List Char → List Char}

def Event.lexeme? : Event → Option (List Char)
  | .number lexeme => some lexeme
  | _ => none

mutual

theorem Value.events_lexemes (f : List Char → List Char) (v : Value) :
    (v.events f).filterMap Event.lexeme? = v.numbers.map f := by
  cases v with
  | null => rfl
  | bool value => rfl
  | number lexeme => rfl
  | string value => rfl
  | array elements =>
    rw [Value.events, Value.numbers, List.filterMap_cons_none rfl, List.filterMap_append,
      elementsEvents_lexemes f elements, List.filterMap_cons_none rfl, List.filterMap_nil,
      List.append_nil]
  | object members =>
    rw [Value.events, Value.numbers, List.filterMap_cons_none rfl, List.filterMap_append,
      membersEvents_lexemes f members, List.filterMap_cons_none rfl, List.filterMap_nil,
      List.append_nil]

theorem elementsEvents_lexemes (f : List Char → List Char) (vs : List Value) :
    (elementsEvents f vs).filterMap Event.lexeme? = (elementsNumbers vs).map f := by
  cases vs with
  | nil => rfl
  | cons v vs =>
    rw [elementsEvents, elementsNumbers, List.filterMap_append, List.map_append,
      Value.events_lexemes f v, elementsEvents_lexemes f vs]

theorem membersEvents_lexemes (f : List Char → List Char) (members : List (List Char × Value)) :
    (membersEvents f members).filterMap Event.lexeme? = (membersNumbers members).map f := by
  match members with
  | [] => rfl
  | (key, v) :: members =>
    rw [membersEvents, membersNumbers, List.filterMap_cons_none rfl, List.filterMap_append,
      List.map_append, Value.events_lexemes f v, membersEvents_lexemes f members]

end

mutual

theorem Value.events_congr (v : Value) (h : ∀ n ∈ v.numbers, f n = g n) :
    v.events f = v.events g := by
  cases v with
  | null => rfl
  | bool value => rfl
  | number lexeme => rw [Value.events, Value.events, h lexeme (List.mem_singleton_self _)]
  | string value => rfl
  | array elements => rw [Value.events, Value.events, elementsEvents_congr elements h]
  | object members => rw [Value.events, Value.events, membersEvents_congr members h]

theorem elementsEvents_congr (vs : List Value) (h : ∀ n ∈ elementsNumbers vs, f n = g n) :
    elementsEvents f vs = elementsEvents g vs := by
  cases vs with
  | nil => rfl
  | cons v vs =>
    have hv := v.events_congr fun n hn => h n (List.mem_append_left _ hn)
    have hvs := elementsEvents_congr vs fun n hn => h n (List.mem_append_right _ hn)
    rw [elementsEvents, elementsEvents, hv, hvs]

theorem membersEvents_congr (members : List (List Char × Value))
    (h : ∀ n ∈ membersNumbers members, f n = g n) :
    membersEvents f members = membersEvents g members := by
  match members with
  | [] => rfl
  | (key, v) :: members =>
    have hv := v.events_congr fun n hn => h n (List.mem_append_left _ hn)
    have hmembers := membersEvents_congr members fun n hn => h n (List.mem_append_right _ hn)
    rw [membersEvents, membersEvents, hv, hmembers]

end

theorem Value.events_inj (v : Value) : v.events f = v.events g ↔ ∀ n ∈ v.numbers, f n = g n := by
  constructor
  · intro h
    have hmap := congrArg (List.filterMap Event.lexeme?) h
    rw [v.events_lexemes f, v.events_lexemes g] at hmap
    exact List.map_inj_left.1 hmap
  · exact v.events_congr

theorem parseNumber_eq {lexeme : List Char} : parseNumber lexeme = lexeme ↔ lexeme.length ≤ 63 :=
  List.take_eq_self_iff lexeme

end Traversal

/-! ## Short texts do not nest deep -/

section Depth

variable {trailing : Bool}

mutual

theorem ValueOf.depth_le {ts : List Token} {v : Value} (h : ValueOf trailing ts v) :
    v.depth ≤ ts.length := by
  cases h with
  | array h =>
    rw [Value.depth, List.length_cons]
    exact Nat.succ_le_succ h.depth_le
  | object h =>
    rw [Value.depth, List.length_cons]
    exact Nat.succ_le_succ h.depth_le
  | emptyArray => decide
  | emptyObject => decide
  | _ => exact Nat.zero_le _

theorem ElementsOf.depth_le {ts : List Token} {vs : List Value} (h : ElementsOf trailing ts vs) :
    elementsDepth vs ≤ ts.length := by
  cases h with
  | last h | trailing _ h =>
    have hvalue := h.depth_le
    simp only [elementsDepth, List.length_append, List.length_cons]
    omega
  | next h hnext =>
    have hvalue := h.depth_le
    have hvalues := hnext.depth_le
    simp only [elementsDepth, List.length_append, List.length_cons]
    omega

theorem MembersOf.depth_le {ts : List Token} {members : List (List Char × Value)}
    (h : MembersOf trailing ts members) : membersDepth members ≤ ts.length := by
  cases h with
  | last _ h | trailing _ _ h =>
    have hvalue := h.depth_le
    simp only [membersDepth, List.length_append, List.length_cons]
    omega
  | next _ h hnext =>
    have hvalue := h.depth_le
    have hmembers := hnext.depth_le
    simp only [membersDepth, List.length_append, List.length_cons]
    omega

end

theorem Spread.length_le {ts : List Token} {w : List Char} (h : Spread ts w) :
    ts.length ≤ w.length := by
  induction h with
  | nil => exact Nat.zero_le _
  | cons _ hspells _ ih =>
    obtain ⟨c, tail, rfl, -⟩ := hspells.cons
    simp only [List.length_append, List.length_cons]
    omega

theorem Text.depth_le {w : List Char} {v : Value} (h : Text trailing w v) : v.depth ≤ w.length := by
  obtain ⟨ts, hspread, hv⟩ := h
  exact le_trans hv.depth_le hspread.length_le

end Depth

section Parsers

variable {reads : List Char → Bool} {w : List Char} {v : Value} {es : List Event}
  {ts ts' : List Token}

/-! ## Each parser and the texts that it accepts -/

theorem ValueOf.follows {trailing : Bool} (h : ValueOf trailing ts v) :
    List.IsChain Follows ts := by
  have hchain : List.IsChain Follows (ts ++ []) := Joins.value follows_joins h nofun .nil
  rwa [List.append_nil] at hchain

theorem ValueOf.parted (h : ValueOf Bool.false ts v) : List.IsChain Parted ts := by
  have hchain : List.IsChain Parted (ts ++ []) := Joins.value parted_joins h nofun .nil
  rwa [List.append_nil] at hchain

theorem Spread.unique (h : Spread ts w) (hchain : List.IsChain Follows ts) (h' : Spread ts' w)
    (hchain' : List.IsChain Follows ts') : ts = ts' :=
  Option.some.inj ((lexTokens_complete h hchain (Nat.lt_succ_self _)).symm.trans
    (lexTokens_complete h' hchain' (Nat.lt_succ_self _)))

theorem jsonParses_iff (hne : w ≠ []) : JsonParses w v ↔ Text false w v := by
  constructor
  · rintro ⟨-, ts, hlex, hdom⟩
    have hspread := lexTokens_sound hlex
    exact ⟨ts, hspread, (domValue_iff hspread.scanned).1 hdom⟩
  · rintro ⟨ts, hspread, hv⟩
    exact ⟨hne, ts, lexTokens_complete hspread hv.follows (Nat.lt_succ_self _),
      (domValue_iff hspread.scanned).2 hv⟩

theorem toOption_eq_some {ε α : Type*} {x : Except ε α} {a : α} :
    x.toOption = some a ↔ x = .ok a := by
  cases x <;> simp [Except.toOption]

/-- The SAX parser accepts those texts, and those with a comma before a closing bracket. -/
theorem jsonParseSax_iff (hreads : ∀ lexeme, IsNumber lexeme → reads lexeme = true) (hne : w ≠ [])
    (hdepth : ∀ v, Text true w v → v.depth ≤ saxMaxDepth) :
    jsonParseSax reads w = .ok es ↔ ∃ v, Text true w v ∧ v.events id = es := by
  have hdriven := feedPieces_driven reads [w]
  rw [List.flatten_singleton] at hdriven
  rw [jsonParseSax, if_neg hne, ← toOption_eq_some, hdriven, driven]
  constructor
  · intro h
    split at h
    · rename_i m rest hdrive
      split_ifs at h with hdone
      obtain ⟨ts, hspread, hrun⟩ := drive_sound hdrive
      obtain ⟨v, hv, hes⟩ := (run_done_iff hspread.scanned
        (fun v hv => hdepth v ⟨ts, hspread, hv⟩) es).1 ⟨m, hrun, hdone, Option.some.inj h⟩
      exact ⟨v, ⟨ts, hspread, hv⟩, hes⟩
    · cases h
  · rintro ⟨v, ⟨ts, hspread, hv⟩, hes⟩
    obtain ⟨m, hrun, hdone, rfl⟩ := (run_done_iff hspread.scanned
      (fun v hv => hdepth v ⟨ts, hspread, hv⟩) es).2 ⟨v, hv, hes⟩
    rw [drive_complete hreads hspread hv.follows, hrun]
    exact if_pos hdone

/-! ## Agreement -/

/-- The parsers accept the same bytes, which are the texts of RFC 8259, and the calls of the one are
the traversal of the tree of the other. -/
structure Agree (reads : List Char → Bool) (w : List Char) : Prop where
  accept : (∃ v, JsonParses w v) ↔ ∃ es, jsonParseSax reads w = .ok es
  texts : (∃ v, JsonParses w v) ↔ ∃ v, Text false w v
  traversal : ∀ v es, JsonParses w v → jsonParseSax reads w = .ok es → es = v.events parseNumber

/-- The parsers agree exactly where no comma stands before a closing bracket and the DOM parser has
room for every number. -/
theorem agree_iff (hreads : ∀ lexeme, IsNumber lexeme → reads lexeme = true) (hne : w ≠ [])
    (hdepth : ∀ v, Text true w v → v.depth ≤ saxMaxDepth) :
    Agree reads w ↔
      (∀ ts v, Spread ts w → ValueOf true ts v → List.IsChain Parted ts) ∧
      ∀ v, Text false w v → ∀ n ∈ v.numbers, n.length ≤ 63 := by
  have hdom {v : Value} := jsonParses_iff (v := v) hne
  have hsax {es : List Event} : jsonParseSax reads w = .ok es ↔ ∃ v, Text true w v ∧ v.events id = es :=
    jsonParseSax_iff hreads hne hdepth
  constructor
  · rintro ⟨haccept, -, htraversal⟩
    refine ⟨fun ts v hspread hv => ?_, fun v hv => ?_⟩
    · obtain ⟨v', hparses⟩ := haccept.2 ⟨_, hsax.2 ⟨v, ⟨ts, hspread, hv⟩, rfl⟩⟩
      obtain ⟨ts', hspread', hv'⟩ := hdom.1 hparses
      rw [hspread.unique hv.follows hspread' hv'.follows]
      exact hv'.parted
    · obtain ⟨ts, hspread, hvalue⟩ := hv
      have hok := hsax.2 ⟨v, ⟨ts, hspread, hvalue.mono⟩, rfl⟩
      have hsame := htraversal v _ (hdom.2 ⟨ts, hspread, hvalue⟩) hok
      exact fun n hn => parseNumber_eq.1 (((Value.events_inj v).1 hsame n hn).symm)
  · rintro ⟨hparted, hroom⟩
    have hstrict : ∀ v, Text true w v → Text false w v := by
      rintro v ⟨ts, hspread, hv⟩
      exact ⟨ts, hspread, hv.strict (hparted ts v hspread hv)⟩
    refine ⟨⟨?_, ?_⟩, exists_congr fun v => hdom, ?_⟩
    · rintro ⟨v, hparses⟩
      obtain ⟨ts, hspread, hv⟩ := hdom.1 hparses
      exact ⟨_, hsax.2 ⟨v, ⟨ts, hspread, hv.mono⟩, rfl⟩⟩
    · rintro ⟨es, hes⟩
      obtain ⟨v, hv, -⟩ := hsax.1 hes
      exact ⟨v, hdom.2 (hstrict v hv)⟩
    · intro v es hparses hes
      have htext := hdom.1 hparses
      obtain ⟨ts, hspread, hv⟩ := htext
      have hok := hsax.2 ⟨v, ⟨ts, hspread, hv.mono⟩, rfl⟩
      rw [hok] at hes
      rw [← Except.ok.inj hes, Value.events_inj]
      exact fun n hn => (parseNumber_eq.2 (hroom v ⟨ts, hspread, hv⟩ n hn)).symm

end Parsers

theorem isNumber_one : IsNumber ['1'] :=
  @IsNumber.mk [] ['1'] [] [] (Or.inl rfl) (Or.inr ⟨'1', [], rfl, by decide, nofun⟩) (Or.inl rfl)
    (Or.inl rfl)

theorem spread_one : Spread [.number ['1']] ['1'] :=
  @Spread.cons [] ['1'] [] _ _ nofun (.number isNumber_one) (.nil nofun)

/-- The parsers agree on a number. -/
theorem agree_one : Agree (fun _ => true) ['1'] := by
  have hone : ValueOf true [.number ['1']] _ := .number _
  have hunique {ts : List Token} {v : Value} {trailing : Bool} (hspread : Spread ts ['1'])
      (hv : ValueOf trailing ts v) : ts = [.number ['1']] :=
    hspread.unique hv.follows spread_one hone.follows
  refine (agree_iff (fun _ _ => rfl) (by decide) fun v hv => le_trans hv.depth_le (by decide)).2
    ⟨fun ts v hspread hv => ?_, ?_⟩
  · rw [hunique hspread hv]
    exact List.isChain_singleton _
  · rintro v ⟨ts, hspread, hv⟩ n hn
    obtain rfl := hunique hspread hv
    cases hv
    rw [List.mem_singleton.1 hn]
    decide

theorem spread_trailing :
    Spread [.lbracket, .number ['1'], .comma, .rbracket] ['[', '1', ',', ']'] :=
  @Spread.cons [] ['['] _ _ _ nofun (.structural rfl) <|
    @Spread.cons [] ['1'] _ _ _ nofun (.number isNumber_one) <|
    @Spread.cons [] [','] _ _ _ nofun (.structural rfl) <|
    @Spread.cons [] [']'] _ _ _ nofun (.structural rfl) (.nil nofun)

/-- `[1,]` is taken by the SAX parser alone. -/
theorem trailing_comma_disagrees :
    (∀ v, Text true ['[', '1', ',', ']'] v → v.depth ≤ saxMaxDepth) ∧
      ¬Agree (fun _ => true) ['[', '1', ',', ']'] := by
  have hdepth : ∀ v, Text true ['[', '1', ',', ']'] v → v.depth ≤ saxMaxDepth :=
    fun v hv => le_trans hv.depth_le (by decide)
  have hvalue : ValueOf true [.lbracket, .number ['1'], .comma, .rbracket]
      (.array [.number ['1']]) :=
    .array (.trailing rfl (.number ['1']))
  refine ⟨hdepth, fun hagree => ?_⟩
  have hok := (jsonParseSax_iff (fun _ _ => rfl) (by decide) hdepth).2
    ⟨_, ⟨_, spread_trailing, hvalue⟩, rfl⟩
  obtain ⟨v, hparses⟩ := hagree.accept.2 ⟨_, hok⟩
  obtain ⟨ts, hspread, hv⟩ := (jsonParses_iff (by decide)).1 hparses
  obtain rfl := hspread.unique hv.follows spread_trailing hvalue.follows
  exact @not_parted [.lbracket, .number ['1']] [] .rbracket (Or.inl rfl) hv.parted

end Json
