import Mathlib.Data.List.Nodup
import Mathlib.Data.List.Perm.Basic

/-! Slots that are in use, on a free list or not yet handed out, and free lists that run through
the free slots themselves. -/
namespace SlotLedger

variable {α : Type*}

/-! ## A list through memory -/

/-- The cells reached from a head, each of them holding the next one, up to the null cell. -/
def Chain (next : α → α) (null : α) : α → List α → Prop
  | head, [] => head = null
  | head, a :: rest => head = a ∧ a ≠ null ∧ Chain next null (next a) rest

section Chain

variable {next next' : α → α} {null head a : α} {cells : List α}

theorem Chain.congr (hsame : ∀ a ∈ cells, next' a = next a) (h : Chain next null head cells) :
    Chain next' null head cells := by
  induction cells generalizing head with
  | nil => exact h
  | cons a rest ih =>
    obtain ⟨hhead, hnull, hrest⟩ := h
    refine ⟨hhead, hnull, ?_⟩
    rw [hsame a List.mem_cons_self]
    exact ih (fun b hb => hsame b (List.mem_cons_of_mem a hb)) hrest

theorem Chain.push (h : Chain next null head cells) (hnull : a ≠ null) (hnext : next a = head) :
    Chain next null a (a :: cells) := ⟨rfl, hnull, hnext ▸ h⟩

theorem Chain.head_eq_null (h : Chain next null null cells) : cells = [] := by
  cases cells with
  | nil => rfl
  | cons a rest => exact absurd h.1.symm h.2.1

theorem Chain.exists_cons (h : Chain next null head cells) (hhead : head ≠ null) :
    ∃ rest, cells = head :: rest ∧ Chain next null (next head) rest := by
  cases cells with
  | nil => exact absurd h hhead
  | cons a rest =>
    obtain ⟨rfl, -, hrest⟩ := h
    exact ⟨rest, rfl, hrest⟩

end Chain

/-! ## Where each slot is -/

structure Split (all used free tail : List α) : Prop where
  nodup : all.Nodup
  perm : all.Perm (used ++ free ++ tail)

namespace Split

variable {all used used' free tail fresh : List α} {a : α}

theorem nodup_parts (h : Split all used free tail) : (used ++ free ++ tail).Nodup :=
  h.perm.nodup_iff.1 h.nodup

theorem notMem_used_of_free (h : Split all used (a :: free) tail) : a ∉ used := by
  intro hused
  have hnodup := (List.nodup_append.1 h.nodup_parts).1
  exact (List.nodup_append.1 hnodup).2.2 a hused a List.mem_cons_self rfl

theorem notMem_used_of_tail (h : Split all used free (a :: tail)) : a ∉ used := by
  intro hused
  exact (List.nodup_append.1 h.nodup_parts).2.2 a (List.mem_append_left free hused) a
    List.mem_cons_self rfl

theorem notMem_free_of_used (h : Split all used free tail) (ha : a ∈ used) : a ∉ free := by
  intro hfree
  have hnodup := (List.nodup_append.1 h.nodup_parts).1
  exact (List.nodup_append.1 hnodup).2.2 a ha a hfree rfl

theorem notMem_tail_of_free (h : Split all used free tail) (ha : a ∈ free) : a ∉ tail := by
  intro htail
  exact (List.nodup_append.1 h.nodup_parts).2.2 a (List.mem_append_right used ha) a htail rfl

theorem notMem_used_of_mem_free (h : Split all used free tail) (ha : a ∈ free) : a ∉ used :=
  fun hused => h.notMem_free_of_used hused ha

theorem mem_of_free (h : Split all used free tail) (ha : a ∈ free) : a ∈ all :=
  h.perm.mem_iff.2 (List.mem_append_left tail (List.mem_append_right used ha))

theorem take_free (h : Split all used (a :: free) tail) (hused : used'.Perm (a :: used)) :
    Split all used' free tail := by
  refine ⟨h.nodup, h.perm.trans ?_⟩
  refine List.Perm.append_right tail ?_
  exact List.perm_middle.trans (hused.symm.append_right free)

theorem take_tail (h : Split all used free (a :: tail)) (hused : used'.Perm (a :: used)) :
    Split all used' free tail := by
  refine ⟨h.nodup, h.perm.trans (List.perm_middle.trans ?_)⟩
  exact (hused.symm.append_right free).append_right tail

theorem give (h : Split all used free tail) (hused : used.Perm (a :: used')) :
    Split all used' (a :: free) tail := by
  refine ⟨h.nodup, h.perm.trans (List.Perm.append_right tail ?_)⟩
  exact (hused.append_right free).trans List.perm_middle.symm

theorem extend (h : Split all used [] []) (hfresh : fresh.Nodup) (hdisjoint : ∀ a ∈ fresh, a ∉ all) :
    Split (fresh ++ all) used [] fresh := by
  refine ⟨List.nodup_append.2 ⟨hfresh, h.nodup, ?_⟩, ?_⟩
  · rintro a ha b hb rfl
    exact hdisjoint a ha hb
  · have hperm := h.perm
    rw [List.append_nil, List.append_nil] at hperm
    rw [List.append_nil]
    exact (hperm.append_left fresh).trans List.perm_append_comm

end Split

/-- One element is added to those that are chosen. -/
theorem perm_filter_of_added {l : List α} {p q : α → Bool} {a : α} (hl : l.Nodup) (ha : a ∈ l)
    (hp : p a = false) (hq : q a = true) (hsame : ∀ b ∈ l, b ≠ a → q b = p b) :
    (l.filter q).Perm (a :: l.filter p) := by
  induction l with
  | nil => exact absurd ha List.not_mem_nil
  | cons b l ih =>
    obtain ⟨hb, hl⟩ := List.nodup_cons.1 hl
    by_cases hab : b = a
    · subst hab
      have htail : l.filter q = l.filter p := List.filter_congr fun c hc =>
        hsame c (List.mem_cons_of_mem _ hc) fun h => hb (h ▸ hc)
      rw [List.filter_cons_of_pos hq, List.filter_cons_of_neg (by rw [hp]; decide), htail]
    · have hmem : a ∈ l := (List.mem_cons.1 ha).resolve_left fun h => hab h.symm
      have hperm := ih hl hmem fun c hc => hsame c (List.mem_cons_of_mem _ hc)
      have hhead := hsame b List.mem_cons_self hab
      cases hpb : p b with
      | true =>
        rw [List.filter_cons_of_pos (hhead.trans hpb), List.filter_cons_of_pos hpb]
        exact (hperm.cons b).trans (List.Perm.swap a b _)
      | false =>
        rw [List.filter_cons_of_neg (by rw [hhead, hpb]; decide),
          List.filter_cons_of_neg (by rw [hpb]; decide)]
        exact hperm

end SlotLedger
