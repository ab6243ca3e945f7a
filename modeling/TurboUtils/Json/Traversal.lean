import TurboUtils.Json.Segmentation
import TurboUtils.Json.Serialize

/-! What the two parsers make of one text: one tree, and of its prints the traversal of that tree. -/
namespace Json

variable {w : List Char} {v v' : Value}

theorem Prints.text_iff (h : Prints v.tokens w) : Text true w v' ↔ v' = v := by
  constructor
  · rintro ⟨ts, hspread, hv⟩
    obtain rfl := hspread.unique hv.follows h.spread v.tokens_valueOf.follows
    have hstrict : ValueOf false v.tokens v' := hv.strict v.tokens_valueOf.parted
    exact (@ValueOf.unique _ _ [] [] _ _ hstrict v.tokens_valueOf rfl).2
  · rintro rfl
    exact ⟨v'.tokens, h.spread, v'.tokens_valueOf.mono⟩

theorem Prints.traversed {reads : List Char → Bool} (h : Prints v.tokens w)
    (hreads : ∀ lexeme, IsNumber lexeme → reads lexeme = true) (hdepth : v.depth ≤ saxMaxDepth)
    (pieces : List (List Char)) (hpieces : pieces.flatten = w) :
    (feedPieces reads pieces).toOption = some (v.events id) := by
  have hne : w ≠ [] := (h.jsonParses_iff.2 rfl).1
  have honce : jsonParseSax reads w = .ok (v.events id) := by
    apply (jsonParseSax_iff hreads hne fun v' hv' => _).2
    · exact ⟨v, h.text_iff.2 rfl, rfl⟩
    · intro v' hv'
      rwa [h.text_iff.1 hv']
  rw [jsonParseSax, if_neg hne] at honce
  have hsame := feedPieces_driven reads [w]
  rw [List.flatten_singleton, honce] at hsame
  rw [feedPieces_driven, hpieces, ← hsame]
  rfl

theorem prints_traversed {reads : List Char → Bool}
    (hreads : ∀ lexeme, IsNumber lexeme → reads lexeme = true) (h : JsonParses w v)
    (hdepth : v.depth ≤ saxMaxDepth) :
    ∀ text ∈ [jsonSerialize v, jsonSerializePretty v, jsonSerializePrettyCrlf v],
      ∀ pieces : List (List Char), pieces.flatten = text →
        (feedPieces reads pieces).toOption = some (v.events id) := by
  have hnumbers := h.isNumber
  simp only [List.forall_mem_cons, List.not_mem_nil, false_imp_iff, implies_true, and_true]
  refine ⟨?_, ?_, ?_⟩
  · exact (v.serialize_prints hnumbers).traversed hreads hdepth
  · exact (v.pretty_prints (by simp [isWs]) 0 hnumbers).traversed hreads hdepth
  · exact (v.pretty_prints (by simp [isWs]) 0 hnumbers).traversed hreads hdepth

theorem prints_traversed_null : JsonParses (jsonSerialize (.array [.null])) (.array [.null]) ∧
    (feedPieces (fun _ => true) [['[', 'n', 'u'], [], ['l', 'l', ']']]).toOption =
      some (Value.events id (.array [.null])) := by
  have hparses : JsonParses (jsonSerialize (.array [.null])) (.array [.null]) :=
    (Value.serialize_prints _ (by simp [Value.numbers, elementsNumbers])).jsonParses_iff.2 rfl
  exact ⟨hparses, prints_traversed (fun _ _ => rfl) hparses (by decide) _ List.mem_cons_self _ rfl⟩

end Json
