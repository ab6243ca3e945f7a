import TurboUtils.Lib.SuffixLinks
import TurboUtils.Utils.Utf8

/-! The automata of ac_automaton.c: patterns are added, failure links are built, and a text is matched.
A link or an index of `-1` is none. -/
namespace AcAutomaton
open SuffixLinks

/-- `AC_AUTOMATON_ENTRY_LIMIT`. -/
def entryLimit : ℕ := 2 ^ 31 - 1

/-- `UINT32_MAX`. -/
def uint32Max : ℕ := 2 ^ 32 - 1

/-- `SIZE_MAX`. -/
def sizeMax : ℕ := 2 ^ 64 - 1

/-- A `vstr`: some bytes, or a length without any. -/
inductive Vstr where
  | null (len : ℕ)
  | bytes (data : List UInt8)
  deriving DecidableEq

/-- `ac_byte_node_t`. -/
structure ByteNode where
  next : UInt8 → Option ℕ
  fail : Option ℕ
  outputs : Option ℕ

/-- `ac_utf8_edge_t`. -/
structure Utf8Edge where
  child : ℕ
  codepoint : UInt32
  nextEdge : Option ℕ
  deriving DecidableEq

/-- `ac_utf8_node_t`. -/
structure Utf8Node where
  fail : Option ℕ
  outputs : Option ℕ
  firstEdge : Option ℕ
  deriving DecidableEq

/-- `ac_output_t`. -/
structure Output where
  patternId : ℕ
  patternLen : ℕ
  nextOutput : Option ℕ
  deriving DecidableEq

/-- The nodes and edges of `ac_utf8_automaton_s`. -/
structure Utf8Trie where
  nodes : List Utf8Node
  edges : List Utf8Edge
  deriving DecidableEq

/-- `ac_automaton_s`, and `ac_utf8_automaton_s`, initialized. -/
structure Automaton (S : Type) where
  trie : S
  outputs : List Output
  built : Bool
  nextPatternId : ℕ

abbrev ByteAutomaton := Automaton (List ByteNode)

abbrev Utf8Automaton := Automaton Utf8Trie

/-- Which pushes there is memory for, by the size of the vector. -/
structure Memory where
  nodes : ℕ → Bool
  outputs : ℕ → Bool
  edges : ℕ → Bool

/-- What a refused pattern returns: `SALTS_EINVAL`, or the status of a push. -/
inductive AddError where
  | invalid
  | storage
  deriving DecidableEq

/-- What a callback gets: the pattern, its start and its end. -/
structure Report where
  patternId : ℕ
  first : ℕ
  last : ℕ
  deriving DecidableEq

/-- Whether `vec_push` takes one more entry. -/
def pushes (grants : ℕ → Bool) (size : ℕ) : Bool := size < entryLimit && grants size

/-! ## Nodes of the byte automaton -/

/-- `ac_byte_new_node`, where the push is granted. -/
def newByteNode : ByteNode := ⟨fun _ => none, none, none⟩

/-- The loop over all bytes of `ac_automaton_build`. -/
def allBytes : List UInt8 := (List.range 256).map UInt8.ofNat

def byteStore : Store (List ByteNode) UInt8 where
  size := List.length
  child nodes i ch := nodes[i]?.bind fun node => node.next ch
  edges nodes i := allBytes.filterMap fun ch =>
    (nodes[i]?.bind fun node => node.next ch).map fun child => (ch, child)
  link nodes i := nodes[i]?.bind ByteNode.fail
  setLink nodes i j := nodes.modify i fun node => { node with fail := some j }
  output nodes i := nodes[i]?.bind ByteNode.outputs

/-- One round of the loop of `ac_automaton_add_pattern`. -/
def addByte (memory : Memory) (nodes : List ByteNode) (state : ℕ) (ch : UInt8) :
    Option ℕ × List ByteNode :=
  match byteStore.child nodes state ch with
  | some next => (some next, nodes)
  | none =>
      if pushes memory.nodes nodes.length then
        (some nodes.length,
          (nodes ++ [newByteNode]).modify state fun node =>
            { node with next := Function.update node.next ch (some nodes.length) })
      else (none, nodes)

/-! ## Nodes of the UTF-8 automaton -/

/-- `ac_utf8_new_node`, where the push is granted. -/
def newUtf8Node : Utf8Node := ⟨none, none, none⟩

/-- `ac_utf8_find_child`, in so many rounds at most. -/
def findChild (edges : List Utf8Edge) (cp : UInt32) : ℕ → Option ℕ → Option ℕ
  | _, none => none
  | 0, some _ => none
  | fuel + 1, some k =>
      match edges[k]? with
      | none => none
      | some edge => if edge.codepoint = cp then some edge.child else findChild edges cp fuel edge.nextEdge

/-- The loop over the edges of a node in `ac_utf8_automaton_build`. -/
def edgeList (edges : List Utf8Edge) : ℕ → Option ℕ → List (UInt32 × ℕ)
  | _, none => []
  | 0, some _ => []
  | fuel + 1, some k =>
      match edges[k]? with
      | none => []
      | some edge => (edge.codepoint, edge.child) :: edgeList edges fuel edge.nextEdge

def utf8Store : Store Utf8Trie UInt32 where
  size trie := trie.nodes.length
  child trie i cp :=
    findChild trie.edges cp trie.edges.length (trie.nodes[i]?.bind Utf8Node.firstEdge)
  edges trie i := edgeList trie.edges trie.edges.length (trie.nodes[i]?.bind Utf8Node.firstEdge)
  link trie i := trie.nodes[i]?.bind Utf8Node.fail
  setLink trie i j :=
    { trie with nodes := trie.nodes.modify i fun node => { node with fail := some j } }
  output trie i := trie.nodes[i]?.bind Utf8Node.outputs

/-- `ac_utf8_add_child`. -/
def addChild (memory : Memory) (trie : Utf8Trie) (nodeIndex : ℕ) (cp : UInt32) : Option ℕ × Utf8Trie :=
  match utf8Store.child trie nodeIndex cp with
  | some existing => (some existing, trie)
  | none =>
      if pushes memory.nodes trie.nodes.length then
        let firstEdge := trie.nodes[nodeIndex]?.bind Utf8Node.firstEdge
        let child := trie.nodes.length
        let nodes := trie.nodes ++ [newUtf8Node]
        if pushes memory.edges trie.edges.length then
          (some child,
            ⟨nodes.modify nodeIndex fun node => { node with firstEdge := some trie.edges.length },
              trie.edges ++ [⟨child, cp, firstEdge⟩]⟩)
        else (none, { trie with nodes })
      else (none, trie)

/-! ## Patterns -/

def addOutput {S : Type} (grants : ℕ → Bool) (head : S → ℕ → Option ℕ) (setHead : S → ℕ → ℕ → S)
    (ac : Automaton S) (state patternLen : ℕ) : Except AddError ℕ × Automaton S :=
  if pushes grants ac.outputs.length then
    (.ok ac.nextPatternId,
      ⟨setHead ac.trie state ac.outputs.length,
        ac.outputs ++ [⟨ac.nextPatternId, patternLen, head ac.trie state⟩], false,
        ac.nextPatternId + 1⟩)
  else (.error .storage, ac)

def setByteOutput (nodes : List ByteNode) (i output : ℕ) : List ByteNode :=
  nodes.modify i fun node => { node with outputs := some output }

def setUtf8Output (trie : Utf8Trie) (i output : ℕ) : Utf8Trie :=
  { trie with nodes := trie.nodes.modify i fun node => { node with outputs := some output } }

def addSymbols {S α : Type} (st : Store S α) (add : S → ℕ → α → Option ℕ × S) (grants : ℕ → Bool)
    (setHead : S → ℕ → ℕ → S) (ac : Automaton S) (symbols : List α) : Except AddError ℕ × Automaton S :=
  -- A code point behind as many as a counter holds is refused when it is reached.
  match insertPath add (symbols.take uint32Max) 0 ac.trie with
  | (none, trie) => (.error .storage, { ac with trie })
  | (some state, trie) =>
      if uint32Max < symbols.length then (.error .invalid, { ac with trie })
      else addOutput grants st.output setHead { ac with trie } state symbols.length

/-- `ac_automaton_add_pattern`, with the id of the pattern. -/
def addPattern (memory : Memory) (ac : ByteAutomaton) : Vstr → Except AddError ℕ × ByteAutomaton
  | .null _ => (.error .invalid, ac)
  | .bytes pattern =>
      if pattern.length = sizeMax ∨ pattern.length = 0 ∨ uint32Max < pattern.length ∨
          ac.nextPatternId = uint32Max then (.error .invalid, ac)
      else addSymbols byteStore (addByte memory) memory.outputs setByteOutput ac pattern

/-- `ac_utf8_automaton_add_pattern`, with the id of the pattern. -/
def addUtf8Pattern (memory : Memory) (ac : Utf8Automaton) : Vstr → Except AddError ℕ × Utf8Automaton
  | .null _ => (.error .invalid, ac)
  | .bytes pattern =>
      if pattern.length = sizeMax ∨ !Utf8.valid pattern ∨ pattern.length = 0 ∨
          ac.nextPatternId = uint32Max then (.error .invalid, ac)
      else
        match Utf8.codePoints pattern with
        | none => (.error .invalid, ac)
        | some cps => addSymbols utf8Store (addChild memory) memory.outputs setUtf8Output ac cps

/-! ## Building and matching -/

/-- `ac_automaton_build`, and `ac_utf8_automaton_build`; none where the queue is refused memory. -/
def build {S α : Type} (st : Store S α) (grants : ℕ → Bool) (ac : Automaton S) : Option (Automaton S) :=
  (link st grants ac.trie).map fun trie => { ac with trie, built := true }

def reportsFrom (outputs : List Output) (pos : ℕ) : ℕ → Option ℕ → Except Failure (List Report)
  | _, none => .ok []
  | 0, some _ => .error .endless
  | fuel + 1, some k =>
      match outputs[k]? with
      | none => .error .refused
      | some output =>
          match reportsFrom outputs pos fuel output.nextOutput with
          | .error e => .error e
          | .ok rest =>
              if output.patternLen = 0 ∨ pos + 1 < output.patternLen then .ok rest
              else .ok (⟨output.patternId, pos + 1 - output.patternLen, pos + 1⟩ :: rest)

def matchSymbols {S α : Type} (st : Store S α) (ac : Automaton S) (symbols : List α) :
    Except Failure (List Report) :=
  scan st ac.trie (fun pos => reportsFrom ac.outputs pos ac.outputs.length) symbols 0 0

/-- `ac_automaton_match`, for a callback that never stops it. -/
def matchText (ac : ByteAutomaton) : Vstr → Except Failure (List Report)
  | .null len => if len ≠ 0 ∨ !ac.built then .error .refused else .ok []
  | .bytes text => if !ac.built then .error .refused else matchSymbols byteStore ac text

/-- `ac_utf8_automaton_match`, for a callback that never stops it. -/
def matchUtf8Text (ac : Utf8Automaton) : Vstr → Except Failure (List Report)
  | .null len => if !ac.built ∨ len ≠ 0 then .error .refused else .ok []
  | .bytes text =>
      if !ac.built then .error .refused
      else if !Utf8.valid text then .error .refused
      else
        match Utf8.codePoints text with
        | none => .error .refused
        | some cps => matchSymbols utf8Store ac cps

/-- `ac_automaton_init`. -/
def byteInit : ByteAutomaton := ⟨[newByteNode], [], false, 0⟩

/-- `ac_utf8_automaton_init`. -/
def utf8Init : Utf8Automaton := ⟨⟨[newUtf8Node], []⟩, [], false, 0⟩

end AcAutomaton
