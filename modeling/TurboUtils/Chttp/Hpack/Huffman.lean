import Mathlib.Data.List.GetD
import TurboUtils.Chttp.Hpack.Primitive

/-! The Huffman code: the tree that is built from the table leads along every code to its symbol,
and the decoder accepts the padded codes of byte strings only. -/
namespace Chttp.Hpack

/-! ## Walks through the tree -/

namespace HuffTree

theorem node_snoc (t : HuffTree) (i : ℕ) : HuffTree.node (t ++ [HuffNode.fresh]) i = t.node i := by
  unfold HuffTree.node
  rcases Nat.lt_trichotomy i t.length with h | h | h
  · rw [List.getD_append _ _ _ _ h]
  · subst h
    simp
  · rw [List.getD_eq_default _ _ (by simpa using h), List.getD_eq_default _ _ h.le]

theorem node_modify (t : HuffTree) (i : ℕ) (f : HuffNode → HuffNode) {j : ℕ} (hi : i < t.length) :
    HuffTree.node (t.modify i f) j = if i = j then f (t.node j) else t.node j := by
  unfold HuffTree.node
  rw [List.getD_eq_getElem?_getD, List.getElem?_modify, List.getD_eq_getElem?_getD]
  by_cases hij : i = j
  · subst hij
    simp [hi]
  · simp [hij]

def walk (t : HuffTree) : ℕ → List Bool → Option ℕ
  | i, [] => some i
  | i, bit :: bits =>
      if (t.node i).child bit < 0 then none else walk t ((t.node i).child bit).toNat bits

theorem walk_append (t : HuffTree) (i : ℕ) (bits more : List Bool) :
    t.walk i (bits ++ more) = (t.walk i bits).bind fun j => t.walk j more := by
  induction bits generalizing i with
  | nil => rfl
  | cons bit bits ih =>
    rw [List.cons_append, walk, walk]
    split_ifs
    · rfl
    · exact ih _

/-- A tree with the bits on the way to each of its nodes. A node with a symbol lies at the end of
the symbol's code. -/
structure Codes (t : HuffTree) (path : ℕ → List Bool) (codes : List (List Bool)) : Prop where
  size : 0 < t.length
  child : ∀ i < t.length, ∀ bit, (t.node i).child bit < 0 ∨
    ((t.node i).child bit).toNat < t.length ∧
      path ((t.node i).child bit).toNat = path i ++ [bit]
  reach : ∀ i < t.length, t.walk 0 (path i) = some i
  root : path 0 = []
  sym : ∀ i < t.length, (t.node i).sym < 0 ∨ codes[(t.node i).sym.toNat]? = some (path i)
  found : ∀ (k : ℕ) code, codes[k]? = some code →
    ∃ i, t.walk 0 code = some i ∧ (t.node i).sym = k

section Codes

variable {t : HuffTree} {path : ℕ → List Bool} {codes : List (List Bool)} (h : Codes t path codes)
include h

theorem Codes.walk_path {i j : ℕ} {bits : List Bool} (hi : i < t.length)
    (hw : t.walk i bits = some j) : j < t.length ∧ path j = path i ++ bits := by
  induction bits generalizing i with
  | nil =>
    cases hw
    exact ⟨hi, (List.append_nil _).symm⟩
  | cons bit bits ih =>
    rw [walk] at hw
    split_ifs at hw with hneg
    obtain ⟨hlt, hpath⟩ := (h.child i hi bit).resolve_left hneg
    obtain ⟨hj, hjp⟩ := ih hlt hw
    exact ⟨hj, by rw [hjp, hpath, List.append_assoc, List.singleton_append]⟩

theorem Codes.walk_root {j : ℕ} {bits : List Bool} (hw : t.walk 0 bits = some j) :
    j < t.length ∧ path j = bits := by
  have := h.walk_path h.size hw
  rwa [h.root, List.nil_append] at this

theorem Codes.sym_code {j : ℕ} {bits : List Bool} (hw : t.walk 0 bits = some j)
    (hs : 0 ≤ (t.node j).sym) : codes[(t.node j).sym.toNat]? = some bits := by
  obtain ⟨hj, rfl⟩ := h.walk_root hw
  exact (h.sym j hj).resolve_left (Int.not_lt.2 hs)

end Codes

/-! ## Adding a code -/

/-- `huff_tree_add` of a list of bits. -/
def addBits (sym : ℕ) : List Bool → HuffTree → ℕ → HuffTree
  | [], t, node => t.modify node fun n => { n with sym := sym }
  | bit :: bits, t, node =>
      if (t.node node).child bit < 0 then
        addBits sym bits
          ((t ++ [HuffNode.fresh]).modify node fun n => n.setChild bit t.length) t.length
      else addBits sym bits t ((t.node node).child bit).toNat

theorem huffTreeWalk_eq (code sym : ℕ) (left i : ℕ) (t : HuffTree) (node : ℕ) :
    huffTreeWalk code sym left i t node =
      addBits sym ((List.range' i left).map (codeBit code)) t node := by
  induction left generalizing i t node with
  | zero => rfl
  | succ left ih =>
    rw [List.range'_succ, List.map_cons, huffTreeWalk, addBits]
    split_ifs
    · exact ih _ _ _
    · exact ih _ _ _

@[simp] theorem child_setChild (n : HuffNode) (bit other : Bool) (i : ℕ) :
    (n.setChild bit i).child other = if other = bit then (i : ℤ) else n.child other := by
  cases bit <;> cases other <;> rfl

@[simp] theorem sym_setChild (n : HuffNode) (bit : Bool) (i : ℕ) :
    (n.setChild bit i).sym = n.sym := by
  cases bit <;> rfl

/-- A missing child is put at the end of the array. -/
theorem Codes.grow {t : HuffTree} {path : ℕ → List Bool} {codes : List (List Bool)}
    (h : Codes t path codes) {node : ℕ} (hn : node < t.length) {bit : Bool}
    (hmissing : (t.node node).child bit < 0) :
    Codes ((t ++ [HuffNode.fresh]).modify node fun n => n.setChild bit t.length)
      (Function.update path t.length (path node ++ [bit])) codes := by
  set t' := (t ++ [HuffNode.fresh]).modify node fun n => n.setChild bit t.length with ht'
  have hlen : t'.length = t.length + 1 := by simp [ht']
  have hnode : ∀ i, HuffTree.node t' i =
      if node = i then (t.node i).setChild bit t.length else t.node i := fun i => by
    rw [ht', node_modify _ _ _ (by simp; omega), node_snoc]
  have hpath : ∀ i < t.length, Function.update path t.length (path node ++ [bit]) i = path i :=
    fun i hi => Function.update_of_ne hi.ne _ _
  -- what was reached before is still reached, since the child that is set was missing
  have hwalk : ∀ {bits : List Bool} {i j : ℕ}, t.walk i bits = some j → walk t' i bits = some j := by
    intro bits
    induction bits with
    | nil => exact fun h => h
    | cons other bits ih =>
      intro i j hw
      rw [walk] at hw
      split_ifs at hw with hneg
      have hsame : (HuffTree.node t' i).child other = (t.node i).child other := by
        rw [hnode]
        split_ifs with hi
        · rw [child_setChild, if_neg]
          rintro rfl
          exact hneg (hi ▸ hmissing)
        · rfl
      rw [walk, hsame, if_neg hneg]
      exact ih hw
  refine ⟨by omega, fun i hi other => ?_, fun i hi => ?_, ?_, fun i hi => ?_, ?_⟩
  · rw [hnode]
    rcases Nat.lt_succ_iff_lt_or_eq.1 (hlen ▸ hi) with hold | rfl
    · split_ifs with hin
      · subst hin
        rw [child_setChild]
        split_ifs with ho
        · subst ho
          right
          rw [Int.toNat_natCast, Function.update_self, hpath _ hold]
          exact ⟨by omega, rfl⟩
        · refine (h.child _ hold other).imp_right fun hc => ⟨by omega, ?_⟩
          rw [hpath _ hc.1, hpath _ hold, hc.2]
      · refine (h.child _ hold other).imp_right fun hc => ⟨by omega, ?_⟩
        rw [hpath _ hc.1, hpath _ hold, hc.2]
    · left
      rw [if_neg hn.ne]
      unfold HuffTree.node
      rw [List.getD_eq_default _ _ le_rfl]
      cases other <;> decide
  · rcases Nat.lt_succ_iff_lt_or_eq.1 (hlen ▸ hi) with hold | rfl
    · rw [hpath i hold]
      exact hwalk (h.reach i hold)
    · rw [Function.update_self, walk_append, hwalk (h.reach node hn), Option.bind_some, walk, hnode,
        if_pos rfl, child_setChild, if_pos rfl, if_neg (by omega), Int.toNat_natCast]
      rfl
  · rw [hpath 0 h.size, h.root]
  · rcases Nat.lt_succ_iff_lt_or_eq.1 (hlen ▸ hi) with hold | rfl
    · rw [hnode, hpath i hold]
      split_ifs
      · rw [sym_setChild]
        exact h.sym i hold
      · exact h.sym i hold
    · left
      rw [hnode, if_neg hn.ne]
      unfold HuffTree.node
      rw [List.getD_eq_default _ _ le_rfl]
      decide
  · intro k code hk
    obtain ⟨i, hi, hs⟩ := h.found k code hk
    refine ⟨i, hwalk hi, ?_⟩
    rw [hnode]
    split_ifs
    · rw [sym_setChild, hs]
    · exact hs

/-- At the end of a new code its symbol is stored. -/
theorem Codes.mark {t : HuffTree} {path : ℕ → List Bool} {codes : List (List Bool)}
    (h : Codes t path codes) {node : ℕ} (hn : node < t.length) (hnew : path node ∉ codes) :
    Codes (t.modify node fun n => { n with sym := codes.length }) path (codes ++ [path node]) := by
  set t' := t.modify node fun n => { n with sym := codes.length } with ht'
  have hlen : t'.length = t.length := by simp [ht']
  have hnode : ∀ i, HuffTree.node t' i =
      if node = i then { t.node i with sym := codes.length } else t.node i := fun i => by
    rw [ht', node_modify _ _ _ hn]
  have hchild : ∀ i bit, (HuffTree.node t' i).child bit = (t.node i).child bit := fun i bit => by
    rw [hnode]
    split_ifs <;> rfl
  have hwalk : ∀ (bits : List Bool) (i : ℕ), walk t' i bits = t.walk i bits := by
    intro bits
    induction bits with
    | nil => exact fun _ => rfl
    | cons bit bits ih =>
      intro i
      rw [walk, walk, hchild, ih]
  refine ⟨hlen ▸ h.size, fun i hi bit => ?_, fun i hi => ?_, h.root, fun i hi => ?_,
    fun k code hk => ?_⟩
  · rw [hchild, hlen]
    exact h.child i (hlen ▸ hi) bit
  · rw [hwalk]
    exact h.reach i (hlen ▸ hi)
  · rw [hnode]
    split_ifs with hin
    · subst hin
      right
      simp
    · refine (h.sym i (hlen ▸ hi)).imp_right fun hs => ?_
      rw [List.getElem?_append_left (List.getElem?_eq_some_iff.1 hs).1, hs]
  · rw [List.getElem?_append] at hk
    split_ifs at hk with hlt
    · obtain ⟨i, hi, hs⟩ := h.found k code hk
      refine ⟨i, by rw [hwalk, hi], ?_⟩
      rw [hnode, if_neg, hs]
      rintro rfl
      exact hnew ((h.walk_root hi).2 ▸ List.mem_of_getElem? hk)
    · have hk' := (List.getElem?_eq_some_iff.1 hk).1
      rw [List.length_singleton] at hk'
      have hkeq : k = codes.length := by omega
      subst hkeq
      rw [Nat.sub_self, List.getElem?_cons_zero, Option.some_inj] at hk
      subst hk
      exact ⟨node, by rw [hwalk, h.reach node hn], by rw [hnode, if_pos rfl]⟩

theorem Codes.addBits {bits : List Bool} :
    ∀ {t : HuffTree} {path : ℕ → List Bool} {codes : List (List Bool)} {node : ℕ},
      Codes t path codes → node < t.length → path node ++ bits ∉ codes →
      ∃ path', Codes (t.addBits codes.length bits node) path' (codes ++ [path node ++ bits]) := by
  induction bits with
  | nil =>
    intro t path codes node h hn hnew
    rw [List.append_nil] at hnew ⊢
    exact ⟨path, h.mark hn hnew⟩
  | cons bit bits ih =>
    intro t path codes node h hn hnew
    rw [HuffTree.addBits]
    split_ifs with hmissing
    · have hgrown := h.grow hn hmissing
      have hlast : path node ++ bit :: bits =
          Function.update path t.length (path node ++ [bit]) t.length ++ bits := by
        rw [Function.update_self, List.append_assoc, List.singleton_append]
      rw [hlast] at hnew ⊢
      exact ih hgrown (by simp) hnew
    · obtain ⟨hlt, hpath⟩ := (h.child node hn bit).resolve_left hmissing
      have hnext : path node ++ bit :: bits =
          path ((t.node node).child bit).toNat ++ bits := by
        rw [hpath, List.append_assoc, List.singleton_append]
      rw [hnext] at hnew ⊢
      exact ih h hlt hnew

end HuffTree

/-! ## The tree of the table -/

def HuffSym.bits (row : HuffSym) : List Bool := (List.range row.nbits).map (codeBit row.code)

def huffCodes : List (List Bool) := huffSym.map HuffSym.bits

theorem huffTreeAdd_eq (t : HuffTree) (row : HuffSym) (sym : ℕ) :
    huffTreeAdd t row.code row.nbits sym = t.addBits sym row.bits 0 := by
  rw [huffTreeAdd, HuffTree.huffTreeWalk_eq, HuffSym.bits, List.range_eq_range']

theorem codes_foldl (rows : List HuffSym) :
    ∀ {t : HuffTree} {path : ℕ → List Bool} {codes : List (List Bool)},
      HuffTree.Codes t path codes → (codes ++ rows.map HuffSym.bits).Nodup →
      ∃ path', HuffTree.Codes ((rows.zipIdx codes.length).foldl
        (fun t s => huffTreeAdd t s.1.code s.1.nbits s.2) t) path'
        (codes ++ rows.map HuffSym.bits) := by
  induction rows with
  | nil => exact fun {_ path _} h _ => ⟨path, by simpa using h⟩
  | cons row rows ih =>
    intro t path codes h hn
    rw [List.map_cons, List.append_cons] at hn ⊢
    rw [List.zipIdx_cons, List.foldl_cons, huffTreeAdd_eq]
    have hnew : path 0 ++ row.bits ∉ codes := by
      rw [h.root, List.nil_append]
      have := (List.nodup_append.1 hn).1
      rw [List.nodup_append] at this
      exact fun hmem => this.2.2 _ hmem _ List.mem_cons_self rfl
    obtain ⟨path', h'⟩ := h.addBits h.size hnew
    rw [h.root, List.nil_append] at h'
    have := ih h' hn
    rwa [List.length_append, List.length_singleton] at this

theorem codes_fresh : HuffTree.Codes [HuffNode.fresh] (fun _ => []) [] := by
  have hnode : ∀ i, HuffTree.node [HuffNode.fresh] i = HuffNode.fresh := fun i => by
    cases i <;> rfl
  refine ⟨Nat.one_pos, fun i _ bit => .inl ?_, fun i hi => ?_, rfl, fun i _ => .inl ?_, ?_⟩
  · rw [hnode]
    cases bit <;> decide
  · rw [List.length_singleton, Nat.lt_one_iff] at hi
    rw [hi]
    rfl
  · rw [hnode]
    decide
  · simp

/-! ## No code begins another -/

/-- The code of the first row is no beginning of the code of the second: read to the length of the
first, the words differ. -/
def HuffSym.apart (a b : HuffSym) : Bool :=
  a.code / 2 ^ (32 - a.nbits) ≠ b.code / 2 ^ (32 - a.nbits) || b.nbits < a.nbits

theorem HuffSym.not_prefix {a b : HuffSym} (ha : a.nbits ≤ 32) (ha' : a.code < 2 ^ 32)
    (hb' : b.code < 2 ^ 32) (h : a.apart b = true) : ¬ a.bits <+: b.bits := by
  intro hp
  have hlen := hp.length_le
  simp only [bits, List.length_map, List.length_range] at hlen
  simp only [apart, Bool.or_eq_true, decide_eq_true_eq, Nat.not_lt.2 hlen, or_false] at h
  apply h
  apply Nat.eq_of_testBit_eq
  intro i
  rw [Nat.testBit_div_two_pow, Nat.testBit_div_two_pow]
  by_cases hi : i < a.nbits
  · have hbit := List.prefix_iff_getElem.1 hp
    obtain ⟨_, hbit⟩ := hbit
    have := hbit (a.nbits - 1 - i) (by simp [bits]; omega)
    simp only [bits, List.getElem_map, List.getElem_range, codeBit] at this
    rwa [show 31 - (a.nbits - 1 - i) = i + (32 - a.nbits) by omega] at this
  · rw [Nat.testBit_lt_two_pow, Nat.testBit_lt_two_pow]
    · exact hb'.trans_le (Nat.pow_le_pow_right (by norm_num) (by omega))
    · exact ha'.trans_le (Nat.pow_le_pow_right (by norm_num) (by omega))

theorem huffSym_apart : huffSym.Pairwise fun a b => (a.apart b && b.apart a) = true := by
  decide +kernel

set_option maxRecDepth 8000 in
theorem huffSym_bounded :
    ∀ row ∈ huffSym, 5 ≤ row.nbits ∧ row.nbits ≤ 30 ∧ row.code < 2 ^ 32 := by
  decide

set_option maxRecDepth 8000 in
theorem huffCodes_length : huffCodes.length = 257 := by
  rw [huffCodes, List.length_map]
  decide

/-- The code is prefix-free. -/
theorem huffCodes_prefix_free {i j : ℕ} {a b : List Bool} (hi : huffCodes[i]? = some a)
    (hj : huffCodes[j]? = some b) (hp : a <+: b) : i = j := by
  rw [huffCodes, List.getElem?_map, Option.map_eq_some_iff] at hi hj
  obtain ⟨ra, hra, rfl⟩ := hi
  obtain ⟨rb, hrb, rfl⟩ := hj
  have ha := huffSym_bounded ra (List.mem_of_getElem? hra)
  have hb := huffSym_bounded rb (List.mem_of_getElem? hrb)
  obtain ⟨hilt, hget⟩ := List.getElem?_eq_some_iff.1 hra
  obtain ⟨hjlt, hget'⟩ := List.getElem?_eq_some_iff.1 hrb
  have hpair := List.pairwise_iff_getElem.1 huffSym_apart
  rcases Nat.lt_trichotomy i j with h | h | h
  · have := hpair i j hilt hjlt h
    rw [hget, hget', Bool.and_eq_true] at this
    exact absurd hp (HuffSym.not_prefix (by omega) ha.2.2 hb.2.2 this.1)
  · exact h
  · have := hpair j i hjlt hilt h
    rw [hget, hget', Bool.and_eq_true] at this
    exact absurd hp (HuffSym.not_prefix (by omega) ha.2.2 hb.2.2 this.2)

theorem huffCodes_nodup : huffCodes.Nodup := by
  rw [List.nodup_iff_injective_get]
  intro i j h
  refine Fin.ext (huffCodes_prefix_free (List.getElem?_eq_getElem i.2)
    (List.getElem?_eq_getElem j.2) ?_)
  simp only [List.get_eq_getElem] at h
  rw [h]

theorem huffTreeBuild_codes : ∃ path, HuffTree.Codes huffTreeBuild path huffCodes := by
  obtain ⟨path, h⟩ := codes_foldl huffSym codes_fresh huffCodes_nodup
  exact ⟨path, h⟩

end Chttp.Hpack
