import TurboUtils.Utils.AcPatterns

/-! Whatever patterns are added and whenever links are built: behind a build, matching reports every
occurrence of a pattern once, in the order of the ends and for equal ends of the starts. -/
namespace AcAutomaton
open SuffixLinks

/-- A call of `add_pattern` or of `build`. -/
inductive Call where
  | add (memory : Memory) (pattern : Vstr)
  | build (grants : ℕ → Bool)

def run {S α : Type} (st : Store S α)
    (add : Memory → Automaton S → Vstr → Except AddError ℕ × Automaton S) :
    List Call → Automaton S → Option (List ℕ × Automaton S)
  | [], ac => some ([], ac)
  | .add memory pattern :: calls, ac =>
      match add memory ac pattern with
      | (.error _, _) => none
      | (.ok id, ac) => (run st add calls ac).map fun later => (id :: later.1, later.2)
  | .build grants :: calls, ac => (build st grants ac).bind (run st add calls)

def patternsOf : List Call → List (List UInt8)
  | [] => []
  | .add _ (.bytes pattern) :: calls => pattern :: patternsOf calls
  | _ :: calls => patternsOf calls

/-! ## What is expected -/

section Expected

variable {α : Type} [DecidableEq α] {patterns : List (List α)} {before text : List α} {r : Report}

/-- The occurrences of the patterns in a text, each once, and in order. -/
structure Complete (patterns : List (List α)) (text : List α) (reports : List Report) : Prop where
  exact : ∀ id first last, ⟨id, first, last⟩ ∈ reports ↔ ∃ p, patterns[id]? = some p ∧
    first ≤ last ∧ last ≤ text.length ∧ (text.take last).drop first = p
  nodup : reports.Nodup
  ordered : reports.Pairwise fun a b => a.last < b.last ∨ a.last = b.last ∧ a.first ≤ b.first

/-- One report before another one: it ends first, or it starts first, or its pattern is newer. -/
def Before (a b : Report) : Prop :=
  a.last < b.last ∨ a.last = b.last ∧ (a.first < b.first ∨ a.first = b.first ∧ b.patternId < a.patternId)

theorem mem_reportsOf {pos : ℕ} {w : List α} : r ∈ reportsOf patterns pos w ↔
    patterns[r.patternId]? = some w ∧ r.first = pos + 1 - w.length ∧ r.last = pos + 1 := by
  rw [reportsOf, List.mem_map]
  constructor
  · rintro ⟨id, hid, rfl⟩
    exact ⟨mem_idsOf.1 hid, rfl, rfl⟩
  · rintro ⟨hid, hfirst, hlast⟩
    refine ⟨r.patternId, mem_idsOf.2 hid, ?_⟩
    rw [← hfirst, ← hlast]

/-- At the end of `before`, all its suffixes are reported. -/
theorem mem_here {pos : ℕ} (hpos : before.length = pos + 1) :
    r ∈ before.tails.flatMap (reportsOf patterns pos) ↔
      r.last = before.length ∧ r.first ≤ r.last ∧ patterns[r.patternId]? = some (before.drop r.first) := by
  rw [List.mem_flatMap]
  constructor
  · rintro ⟨w, hw, hr⟩
    obtain ⟨hid, hfirst, hlast⟩ := mem_reportsOf.1 hr
    have hdrop := List.suffix_iff_eq_drop.1 ((List.mem_tails w before).1 hw)
    rw [hpos, ← hfirst] at hdrop
    refine ⟨hlast.trans hpos.symm, by omega, ?_⟩
    rw [← hdrop]
    exact hid
  · rintro ⟨hlast, hle, hid⟩
    refine ⟨before.drop r.first, (List.mem_tails _ _).2 (List.drop_suffix _ _), mem_reportsOf.2 ⟨hid, ?_, ?_⟩⟩
    · rw [List.length_drop]
      omega
    · exact hlast.trans hpos

theorem mem_occurrences : r ∈ occurrences (fun _ => true) (reportsOf patterns) before text ↔
    before.length < r.last ∧ r.last ≤ (before ++ text).length ∧ r.first ≤ r.last ∧
      patterns[r.patternId]? = some (((before ++ text).take r.last).drop r.first) := by
  induction text generalizing before with
  | nil =>
    rw [List.append_nil]
    exact iff_of_false List.not_mem_nil fun h => by omega
  | cons c text ih =>
    have hlen : (before ++ [c]).length = before.length + 1 := List.length_append
    rw [occurrences, List.filter_true, List.mem_append, mem_here hlen, ih, hlen, ← List.append_cons]
    constructor
    · rintro (⟨hlast, hle, hid⟩ | ⟨hless, hmore⟩)
      · have htake : (before ++ c :: text).take r.last = before ++ [c] := by
          rw [List.append_cons, hlast, ← hlen, List.take_left]
        rw [htake, List.length_append, List.length_cons]
        exact ⟨by omega, by omega, hle, hid⟩
      · exact ⟨by omega, hmore⟩
    · rintro ⟨hless, hmore⟩
      by_cases hlast : r.last = before.length + 1
      · have htake : (before ++ c :: text).take r.last = before ++ [c] := by
          rw [List.append_cons, hlast, ← hlen, List.take_left]
        rw [htake] at hmore
        exact Or.inl ⟨hlast, hmore.2⟩
      · exact Or.inr ⟨by omega, hmore⟩

omit [DecidableEq α] in
theorem tails_pairwise (w : List α) : w.tails.Pairwise fun u v => v.length < u.length := by
  induction w with
  | nil => exact List.pairwise_singleton _ _
  | cons c w ih =>
    refine List.Pairwise.cons (fun v hv => ?_) ih
    exact Nat.lt_succ_of_le ((List.mem_tails v w).1 hv).length_le

theorem occurrences_pairwise (patterns : List (List α)) (before text : List α) :
    (occurrences (fun _ => true) (reportsOf patterns) before text).Pairwise Before := by
  induction text generalizing before with
  | nil => exact List.Pairwise.nil
  | cons c text ih =>
    have hlen : (before ++ [c]).length = before.length + 1 := List.length_append
    rw [occurrences, List.filter_true]
    refine List.pairwise_append.2 ⟨List.pairwise_flatMap.2 ⟨fun w _ => ?_, ?_⟩, ih _, fun a ha b hb => ?_⟩
    · rw [reportsOf, List.pairwise_map]
      exact (idsOf_pairwise patterns w).imp fun hless => Or.inr ⟨rfl, Or.inr ⟨rfl, hless⟩⟩
    · refine (tails_pairwise _).imp_of_mem fun {u v} hu hv hless a ha b hb => ?_
      obtain ⟨-, hfirst, hlast⟩ := mem_reportsOf.1 ha
      obtain ⟨-, hfirst', hlast'⟩ := mem_reportsOf.1 hb
      have hle := ((List.mem_tails u _).1 hu).length_le
      exact Or.inr ⟨hlast.trans hlast'.symm, Or.inl (by omega)⟩
    · have hlast := ((mem_here hlen).1 ha).1
      have hless := (mem_occurrences.1 hb).1
      exact Or.inl (by omega)

theorem expected_complete (hpatterns : ∀ p ∈ patterns, p ≠ []) (text : List α) :
    Complete patterns text (expected patterns text) := by
  have hpairwise := occurrences_pairwise patterns [] text
  refine ⟨fun id first last => ?_, hpairwise.imp fun {a b} hab => ?_, hpairwise.imp fun {a b} hab => ?_⟩
  · rw [expected, mem_occurrences, List.nil_append]
    constructor
    · rintro ⟨-, hlast, hle, hid⟩
      exact ⟨_, hid, hle, hlast, rfl⟩
    · rintro ⟨p, hid, hle, hlast, rfl⟩
      have hne := hpatterns _ (List.mem_of_getElem? hid)
      refine ⟨Nat.pos_of_ne_zero fun hzero => hne ?_, hlast, hle, hid⟩
      rw [show last = 0 from hzero, List.take_zero, List.drop_nil]
  · rintro rfl
    rcases hab with hless | ⟨-, hless | ⟨-, hless⟩⟩
    all_goals exact Nat.lt_irrefl _ hless
  · rcases hab with hless | ⟨heq, hless | ⟨hsame, -⟩⟩
    · exact Or.inl hless
    · exact Or.inr ⟨heq, hless.le⟩
    · exact Or.inr ⟨heq, hsame.le⟩

end Expected

/-- Symbols may be renamed. -/
theorem expected_map {α β : Type} [DecidableEq α] [DecidableEq β] {f : α → β} (hf : f.Injective)
    (patterns : List (List α)) (text : List α) :
    expected (patterns.map (List.map f)) (text.map f) = expected patterns text := by
  have hids : ∀ w : List α, idsOf (patterns.map (List.map f)) (w.map f) = idsOf patterns w := by
    intro w
    rw [idsOf, idsOf, List.length_map]
    refine congrArg List.reverse (List.filter_congr fun id _ => ?_)
    rw [List.getElem?_map, decide_eq_decide]
    constructor
    · intro h
      obtain ⟨p, hp, heq⟩ := Option.map_eq_some_iff.1 h
      rw [hp, List.map_injective_iff.2 hf heq]
    · intro h
      rw [h]
      rfl
  have hreports : ∀ pos (ws : List (List α)), (ws.map (List.map f)).flatMap
      (reportsOf (patterns.map (List.map f)) pos) = ws.flatMap (reportsOf patterns pos) := by
    intro pos ws
    rw [List.flatMap_map]
    refine List.flatMap_congr fun w _ => ?_
    rw [reportsOf, reportsOf, hids, List.length_map]
  have hall : ∀ before, occurrences (fun _ => true) (reportsOf (patterns.map (List.map f)))
      (List.map f before) (text.map f) = occurrences (fun _ => true) (reportsOf patterns) before text := by
    induction text with
    | nil => exact fun _ => rfl
    | cons c text ih =>
      intro before
      have hmap : List.map f before ++ [f c] = List.map f (before ++ [c]) := by
        rw [List.map_append]
        rfl
      rw [List.map_cons, occurrences, occurrences, hmap, ih, List.filter_true, List.filter_true,
        List.map_tails, hreports, List.length_map]
  exact hall []

/-! ## Runs -/

section Runs

variable {S α : Type} [DecidableEq α] {M : Machine S α}
  {add : Memory → Automaton S → Vstr → Except AddError ℕ × Automaton S}
  {spell : List UInt8 → Option (List α)} {calls : List Call} {ac ac' : Automaton S} {ids : List ℕ}
  {patterns : List (List α)} {grants : ℕ → Bool}

/-- A pattern that is taken is spelled, and its symbols are added. -/
def Spelled (M : Machine S α) (add : Memory → Automaton S → Vstr → Except AddError ℕ × Automaton S)
    (spell : List UInt8 → Option (List α)) : Prop :=
  ∀ memory ac v id ac', add memory ac v = (.ok id, ac') → ∃ data symbols, v = .bytes data ∧
    spell data = some symbols ∧ symbols ≠ [] ∧ M.addSymbols memory ac symbols = (.ok id, ac')

omit [DecidableEq α] in
theorem build_built (h : build M.store grants ac = some ac') : ac'.built = true := by
  obtain ⟨trie, -, rfl⟩ := Option.map_eq_some_iff.1 h
  rfl

omit [DecidableEq α] in
/-- Where the last call is a build, the automaton is built. -/
theorem run_built (h : run M.store add calls ac = some (ids, ac'))
    (hlast : calls.getLast? = some (.build grants)) : ac'.built = true := by
  induction calls generalizing ac ids with
  | nil => cases hlast
  | cons call calls ih =>
    cases calls with
    | nil =>
      obtain rfl := Option.some.inj hlast
      obtain ⟨ac₁, hbuild, hrun⟩ := Option.bind_eq_some_iff.1 h
      obtain ⟨-, rfl⟩ := Prod.mk.inj (Option.some.inj hrun)
      exact build_built hbuild
    | cons call' calls =>
      rw [List.getLast?_cons_cons] at hlast
      cases call with
      | add memory v =>
        rw [run] at h
        cases hcall : add memory ac v with
        | mk outcome ac₁ =>
          rw [hcall] at h
          cases outcome with
          | error e => cases h
          | ok id =>
            obtain ⟨⟨later, ac₂⟩, hrun, heq⟩ := Option.map_eq_some_iff.1 h
            obtain ⟨-, rfl⟩ := Prod.mk.inj heq
            exact ih hrun hlast
      | build grants =>
        obtain ⟨ac₁, -, hrun⟩ := Option.bind_eq_some_iff.1 h
        exact ih hrun hlast

/-- After calls that succeed, an automaton knows the patterns that were added. -/
theorem run_holds (hM : M.Lawful) (hadd : Spelled M add spell)
    (h : run M.store add calls ac = some (ids, ac')) (hholds : Holds M ac patterns)
    (hfull : Full M.store ac.trie) : ∃ more,
      List.Forall₂ (fun data symbols => spell data = some symbols) (patternsOf calls) more ∧
      ids = List.range' patterns.length more.length ∧ Holds M ac' (patterns ++ more) ∧
      Full M.store ac'.trie := by
  induction calls generalizing ac patterns ids with
  | nil =>
    obtain ⟨rfl, rfl⟩ := Prod.mk.inj (Option.some.inj h)
    exact ⟨[], List.Forall₂.nil, rfl, by rwa [List.append_nil], hfull⟩
  | cons call calls ih =>
    cases call with
    | add memory v =>
      rw [run] at h
      cases hcall : add memory ac v with
      | mk outcome ac₁ =>
        rw [hcall] at h
        cases outcome with
        | error e => cases h
        | ok id =>
          obtain ⟨⟨later, ac₂⟩, hrun, heq⟩ := Option.map_eq_some_iff.1 h
          obtain ⟨rfl, rfl⟩ := Prod.mk.inj heq
          obtain ⟨data, symbols, rfl, hspell, hne, hsymbols⟩ := hadd memory ac v id ac₁ hcall
          obtain ⟨rfl, hholds₁, hfull₁⟩ := hholds.addSymbols hM hne hsymbols
          obtain ⟨more, hforall, rfl, hholds₂, hfull₂⟩ := ih hrun hholds₁ (hfull₁ hfull)
          refine ⟨symbols :: more, List.Forall₂.cons hspell hforall, ?_, ?_, hfull₂⟩
          · rw [List.length_append, List.length_singleton]
            rfl
          · rwa [List.append_assoc] at hholds₂
    | build grants =>
      obtain ⟨ac₁, hbuild, hrun⟩ := Option.bind_eq_some_iff.1 h
      obtain ⟨hholds₁, -, hfull₁⟩ := hholds.build hM hbuild
      exact ih hrun hholds₁ (hfull₁ hfull)

/-- Every link leads from a node to one that is less deep. -/
def Shallower (st : Store S α) (s : S) : Prop := ∀ i, i ≠ 0 → i < st.size s →
  ∃ w j v, walk st s w 0 = some i ∧ st.link s i = some j ∧ walk st s v 0 = some j ∧ v.length < w.length

omit [DecidableEq α] in
theorem shallower_of_linked {s : S} (h : Linked M.store s) (hfull : Full M.store s) :
    Shallower M.store s := by
  intro i hi hlt
  obtain ⟨w, hw⟩ := hfull i hlt
  have hne : w ≠ [] := by
    rintro rfl
    exact hi (Option.some.inj hw).symm
  obtain ⟨v, j, hlink, hv, hless⟩ := h.shallower hne hw
  exact ⟨w, j, v, hw, hlink, hv, hless⟩

theorem run_matches (hM : M.Lawful) (hadd : Spelled M add spell)
    (h : run M.store add calls ac = some (ids, ac')) (hlast : calls.getLast? = some (.build grants))
    (hholds : Holds M ac []) (hfull : Full M.store ac.trie) : ∃ patterns,
      List.Forall₂ (fun data symbols => spell data = some symbols) (patternsOf calls) patterns ∧
      ids = List.range (patternsOf calls).length ∧ Shallower M.store ac'.trie ∧
      (∀ p ∈ patterns, p ≠ []) ∧ ac'.built = true ∧
      ∀ text, matchSymbols M.store ac' text = .ok (expected patterns text) := by
  obtain ⟨patterns, hforall, hids, hholds', hfull'⟩ := run_holds hM hadd h hholds hfull
  have hbuilt := run_built h hlast
  refine ⟨patterns, hforall, ?_, shallower_of_linked (hholds'.linked hbuilt) hfull',
    fun p hp => (hholds'.ends p hp).1, hbuilt, hholds'.matchSymbols hbuilt⟩
  rw [hids, hforall.length_eq, List.range_eq_range']
  rfl

end Runs

theorem byte_spelled : Spelled byteMachine addPattern some := by
  intro memory ac v id ac' h
  cases v with
  | null len => cases h
  | bytes data =>
    rw [addPattern] at h
    split_ifs at h with hbad
    · cases h
    · exact ⟨data, data, rfl, rfl, fun hnil => hbad (Or.inr (Or.inl (hnil ▸ rfl))), h⟩

theorem codePoints_nil {data : List UInt8} (h : Utf8.codePoints data = some []) : data = [] := by
  cases Utf8.codePoints_eq_some.1 h
  rfl

theorem utf8_spelled : Spelled utf8Machine addUtf8Pattern Utf8.codePoints := by
  intro memory ac v id ac' h
  cases v with
  | null len => cases h
  | bytes data =>
    rw [addUtf8Pattern] at h
    split_ifs at h with hbad
    · cases h
    · cases hcps : Utf8.codePoints data with
      | none =>
        rw [hcps] at h
        cases h
      | some cps =>
        rw [hcps] at h
        refine ⟨data, cps, rfl, hcps, ?_, h⟩
        rintro rfl
        exact hbad (Or.inr (Or.inr (Or.inl (codePoints_nil hcps ▸ rfl))))

section Start

variable {S α : Type} [DecidableEq α] {M : Machine S α} {s : S}

/-- A trie of the root alone. -/
theorem holds_start (hgood : M.good s) (hsize : M.store.size s = 1)
    (hchild : ∀ i c, M.store.child s i c = none) (hedges : ∀ i, M.store.edges s i = [])
    (hlink : M.store.link s 0 = none) (houtput : M.store.output s 0 = none) :
    Holds M ⟨s, [], false, 0⟩ [] ∧ Full M.store s := by
  have hwalk : ∀ w i, walk M.store s w 0 = some i → w = [] ∧ i = 0 := by
    intro w i hw
    cases w with
    | nil => exact ⟨rfl, (Option.some.inj hw).symm⟩
    | cons c w =>
      rw [walk, hchild] at hw
      cases hw
  refine ⟨⟨hgood, ⟨fun u v i hu hv => ?_, fun w i hw => ?_, fun w i c j hw => ?_⟩, hlink,
    fun w i hw => ?_, by simp, rfl, by simp⟩, fun i hi => ⟨[], ?_⟩⟩
  · rw [(hwalk u i hu).1, (hwalk v i hv).1]
  · rw [(hwalk w i hw).2, hsize]
    exact Nat.one_pos
  · rw [hedges, hchild]
    exact iff_of_false List.not_mem_nil (by simp)
  · rw [(hwalk w i hw).2, houtput]
    exact rfl
  · rw [hsize] at hi
    rw [walk, Nat.lt_one_iff.1 hi]

end Start

theorem byteInit_holds : Holds byteMachine byteInit [] ∧ Full byteStore byteInit.trie := by
  have hchild : ∀ i c, byteStore.child byteInit.trie i c = none := by
    intro i c
    cases i with
    | zero => rfl
    | succ i => rfl
  refine holds_start (M := byteMachine) trivial rfl hchild (fun i => ?_) rfl rfl
  refine List.eq_nil_iff_forall_not_mem.2 fun e he => ?_
  cases (hchild i e.1).symm.trans (mem_byteEdges.1 he)

theorem utf8Init_holds : Holds utf8Machine utf8Init [] ∧ Full utf8Store utf8Init.trie := by
  refine holds_start (M := utf8Machine) ⟨nofun, fun i m hm => ?_⟩ rfl (fun i c => ?_) (fun i => ?_) rfl
    rfl
  all_goals
    cases i with
    | zero => first | rfl | cases hm
    | succ i => first | rfl | cases hm

theorem byte_matches {calls : List Call} {grants : ℕ → Bool} {ids : List ℕ} {ac : ByteAutomaton}
    (h : run byteStore addPattern calls byteInit = some (ids, ac))
    (hlast : calls.getLast? = some (.build grants)) :
    ids = List.range (patternsOf calls).length ∧ Shallower byteStore ac.trie ∧
      (∀ p ∈ patternsOf calls, p ≠ []) ∧
      ∀ text, matchText ac (.bytes text) = .ok (expected (patternsOf calls) text) := by
  obtain ⟨patterns, hforall, hids, hless, hne, hbuilt, hmatch⟩ :=
    run_matches byteMachine_lawful byte_spelled h hlast byteInit_holds.1 byteInit_holds.2
  have heq : patternsOf calls = patterns :=
    List.forall₂_eq_eq_eq ▸ hforall.imp fun _ _ hsome => Option.some.inj hsome
  subst heq
  refine ⟨hids, hless, hne, fun text => ?_⟩
  rw [matchText, hbuilt]
  exact hmatch text

theorem utf8_matches {calls : List Call} {grants : ℕ → Bool} {ids : List ℕ} {ac : Utf8Automaton}
    (h : run utf8Store addUtf8Pattern calls utf8Init = some (ids, ac))
    (hlast : calls.getLast? = some (.build grants)) :
    ids = List.range (patternsOf calls).length ∧ Shallower utf8Store ac.trie ∧
      ∃ patterns, List.Forall₂ (fun data cps => Utf8.codePoints data = some cps) (patternsOf calls)
        patterns ∧ (∀ p ∈ patterns, p ≠ []) ∧ ∀ text cps, Utf8.codePoints text = some cps →
          matchUtf8Text ac (.bytes text) = .ok (expected patterns cps) := by
  obtain ⟨patterns, hforall, hids, hless, hne, hbuilt, hmatch⟩ :=
    run_matches utf8Machine_lawful utf8_spelled h hlast utf8Init_holds.1 utf8Init_holds.2
  refine ⟨hids, hless, patterns, hforall, hne, fun text cps hcps => ?_⟩
  rw [matchUtf8Text, hbuilt, Utf8.valid_iff.2 ⟨cps, hcps⟩, hcps]
  exact hmatch cps

theorem forall₂_ascii {datas : List (List UInt8)} {patterns : List (List UInt32)}
    (h : List.Forall₂ (fun data cps => Utf8.codePoints data = some cps) datas patterns)
    (hascii : ∀ p ∈ datas, ∀ b ∈ p, b < 0x80) : patterns = datas.map (List.map UInt8.toUInt32) := by
  induction h with
  | nil => rfl
  | cons hcps _ ih =>
    rw [List.forall_mem_cons] at hascii
    rw [Utf8.codePoints_ascii hascii.1] at hcps
    rw [List.map_cons, ih hascii.2, Option.some.inj hcps]

theorem toUInt32_injective : Function.Injective UInt8.toUInt32 := by
  intro a b h
  have htoNat := congrArg UInt32.toNat h
  rw [UInt8.toNat_toUInt32, UInt8.toNat_toUInt32] at htoNat
  exact UInt8.toNat_inj.1 htoNat

/-- Behind a build the occurrences of all patterns are reported, each once and in order; bytes or code
points are counted, which for ASCII is the same. -/
theorem match_complete :
    (∀ calls grants ids ac, run byteStore addPattern calls byteInit = some (ids, ac) →
      calls.getLast? = some (.build grants) →
        ids = List.range (patternsOf calls).length ∧ Shallower byteStore ac.trie ∧
        ∀ text, ∃ reports, matchText ac (.bytes text) = .ok reports ∧
          Complete (patternsOf calls) text reports) ∧
    (∀ calls grants ids ac, run utf8Store addUtf8Pattern calls utf8Init = some (ids, ac) →
      calls.getLast? = some (.build grants) →
        ids = List.range (patternsOf calls).length ∧ Shallower utf8Store ac.trie ∧
        ∃ patterns, List.Forall₂ (fun data cps => Utf8.codePoints data = some cps) (patternsOf calls)
          patterns ∧ ∀ text cps, Utf8.codePoints text = some cps →
            ∃ reports, matchUtf8Text ac (.bytes text) = .ok reports ∧ Complete patterns cps reports) ∧
    ∀ calls grants ids ac calls' grants' ids' ac',
      run byteStore addPattern calls byteInit = some (ids, ac) →
      run utf8Store addUtf8Pattern calls' utf8Init = some (ids', ac') →
      calls.getLast? = some (.build grants) → calls'.getLast? = some (.build grants') →
      patternsOf calls = patternsOf calls' → (∀ p ∈ patternsOf calls, ∀ b ∈ p, b < 0x80) →
        ∀ text : List UInt8, (∀ b ∈ text, b < 0x80) →
          matchUtf8Text ac' (.bytes text) = matchText ac (.bytes text) := by
  refine ⟨fun calls grants ids ac h hlast => ?_, fun calls grants ids ac h hlast => ?_, ?_⟩
  · obtain ⟨hids, hless, hne, hmatch⟩ := byte_matches h hlast
    exact ⟨hids, hless, fun text => ⟨_, hmatch text, expected_complete hne text⟩⟩
  · obtain ⟨hids, hless, patterns, hforall, hne, hmatch⟩ := utf8_matches h hlast
    exact ⟨hids, hless, patterns, hforall, fun text cps hcps =>
      ⟨_, hmatch text cps hcps, expected_complete hne cps⟩⟩
  · intro calls grants ids ac calls' grants' ids' ac' h h' hlast hlast' hsame hascii text htext
    obtain ⟨-, -, -, hmatch⟩ := byte_matches h hlast
    obtain ⟨-, -, patterns, hforall, -, hmatch'⟩ := utf8_matches h' hlast'
    rw [← hsame] at hforall
    rw [hmatch text, hmatch' text _ (Utf8.codePoints_ascii htext), forall₂_ascii hforall hascii,
      expected_map toUInt32_injective]

set_option maxRecDepth 4000 in
/-- Patterns that are parts of one another, one of them added after a build. -/
theorem match_complete_aba : ∃ ids ac ids' ac',
    run byteStore addPattern [.add ⟨fun _ => true, fun _ => true, fun _ => true⟩ (.bytes [97, 98, 97]),
      .build fun _ => true, .add ⟨fun _ => true, fun _ => true, fun _ => true⟩ (.bytes [98, 97]),
      .build fun _ => true] byteInit = some (ids, ac) ∧
    run utf8Store addUtf8Pattern
      [.add ⟨fun _ => true, fun _ => true, fun _ => true⟩ (.bytes [97, 98, 97]),
        .add ⟨fun _ => true, fun _ => true, fun _ => true⟩ (.bytes [98, 97]), .build fun _ => true]
      utf8Init = some (ids', ac') ∧
    matchUtf8Text ac' (.bytes [97, 98, 97, 98, 97]) = matchText ac (.bytes [97, 98, 97, 98, 97]) := by
  obtain ⟨⟨ids, ac⟩, h⟩ : ∃ r, run byteStore addPattern
    [.add ⟨fun _ => true, fun _ => true, fun _ => true⟩ (.bytes [97, 98, 97]),
      .build fun _ => true, .add ⟨fun _ => true, fun _ => true, fun _ => true⟩ (.bytes [98, 97]),
      .build fun _ => true] byteInit = some r := Option.isSome_iff_exists.1 (by decide)
  obtain ⟨⟨ids', ac'⟩, h'⟩ : ∃ r, run utf8Store addUtf8Pattern
    [.add ⟨fun _ => true, fun _ => true, fun _ => true⟩ (.bytes [97, 98, 97]),
      .add ⟨fun _ => true, fun _ => true, fun _ => true⟩ (.bytes [98, 97]), .build fun _ => true]
      utf8Init = some r := Option.isSome_iff_exists.1 (by decide)
  refine ⟨ids, ac, ids', ac', h, h', ?_⟩
  exact match_complete.2.2 _ _ ids ac _ _ ids' ac' h h' rfl rfl rfl (by decide) _ (by decide)

end AcAutomaton
