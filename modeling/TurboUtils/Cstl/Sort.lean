import TurboUtils.Cstl.Sequence
import TurboUtils.Lib.BottomUpSort

/-! `stable_sort` sorts and keeps the order of equal elements. A buffer is a function of the index; an
element that is moved stays in its old place until it is written over. -/
namespace Cstl.Sort

open BottomUpSort Sequence

variable {α : Type*}

/-! ## The program -/

section Program

variable (cmp : α → α → Ordering)

/-- The loop of `sort_merge` that runs while both runs have elements: the destination, and the
indices `first`, `second` and `output`. -/
def mergeBoth (source : ℕ → α) (middle right : ℕ) (destination : ℕ → α)
    (first second output : ℕ) : (ℕ → α) × ℕ × ℕ × ℕ :=
  if first < middle ∧ second < right then
    if (cmp (source first) (source second)).isLE then
      mergeBoth source middle right (Function.update destination output (source first)) (first + 1)
        second (output + 1)
    else
      mergeBoth source middle right (Function.update destination output (source second)) first
        (second + 1) (output + 1)
  else (destination, first, second, output)
  termination_by (middle - first) + (right - second)

/-- The loops of `sort_merge` and of `stable_sort` that move one element after the other: the
destination, and the index `output`. -/
def moveRange (source : ℕ → α) (stop : ℕ) (destination : ℕ → α) (next output : ℕ) : (ℕ → α) × ℕ :=
  if next < stop then
    moveRange source stop (Function.update destination output (source next)) (next + 1) (output + 1)
  else (destination, output)
  termination_by stop - next

/-- `sort_merge`. -/
def merge (source destination : ℕ → α) (left middle right : ℕ) : ℕ → α :=
  let (destination, first, second, output) := mergeBoth cmp source middle right destination left
    middle left
  let (destination, output) := moveRange source middle destination first output
  (moveRange source right destination second output).1

/-- The merges of one width, from an index on. With a width within the count, which is less than
half of `SIZE_MAX`, no sum wraps. -/
def mergePass (source : ℕ → α) (count width : ℕ) (destination : ℕ → α) (left : ℕ) : ℕ → α :=
  if 0 < width ∧ left < count then
    let middle := if left + width < count then left + width else count
    let right := if middle + width < count then middle + width else count
    mergePass source count width (merge cmp source destination left middle right) (left + width * 2)
  else destination
  termination_by count - left

/-- The two buffers, and whether the source is the array that is sorted. -/
structure Buffers (α : Type*) where
  source : ℕ → α
  destination : ℕ → α
  sourceIsBase : Bool

def mergePasses (count : ℕ) (buffers : Buffers α) (width : ℕ) : Buffers α :=
  if 0 < width ∧ width < count then
    let destination := mergePass cmp buffers.source count width buffers.destination 0
    mergePasses count ⟨destination, buffers.source, !buffers.sourceIsBase⟩
      (if count / 2 < width then count else width * 2)
  else buffers
  termination_by count - width
  decreasing_by split_ifs <;> omega

def copyRange (copies : ℕ → Bool) (base : ℕ → α) (count : ℕ) (scratch : ℕ → α) (copied : ℕ) :
    Option (ℕ → α) :=
  if copied < count then
    if copies copied then
      copyRange copies base count (Function.update scratch copied (base copied)) (copied + 1)
    else none
  else some scratch
  termination_by count - copied

/-- `cmeta_type_desc` as the sort reads it; the traits are there or not. -/
structure ElementType where
  size : ℕ
  align : ℕ
  traits : Bool

def sortMany (base : ℕ → α) (count : ℕ) (type : ElementType) (scratchByteLimit : ℕ)
    (memory : Memory α) (copies : ℕ → Bool) : Option Status × (ℕ → α) :=
  match stride type.size type.align with
  | .error status => (some status, base)
  | .ok step =>
      if count ≠ 0 ∧ sizeMax / count < step then (some .capacityExceeded, base)
      else if scratchByteLimit < count * step then (some .capacityExceeded, base)
      else match allocate memory count step type.align with
        | some status => (some status, base)
        | none =>
            match copyRange copies base count memory.block 0 with
            | none => (some .outOfMemory, base)
            | some scratch =>
                let buffers := mergePasses cmp count ⟨scratch, base, false⟩ 1
                if buffers.sourceIsBase then (none, buffers.source)
                else (none, (moveRange buffers.source count buffers.destination 0 0).1)

/-- `stable_sort` of an array at an address: an error, and the array. -/
def stableSort (base : ℕ → α) (address count : ℕ) (type : Option ElementType)
    (scratchByteLimit : ℕ) (memory : Memory α) (copies : ℕ → Bool) : Option Status × (ℕ → α) :=
  match type with
  | none => (some .invalidArgument, base)
  | some type =>
      if type.size = 0 || !alignmentValid type.align then (some .invalidArgument, base)
      else if !type.traits then (some .traitMissing, base)
      else if count = 0 then (none, base)
      else if address = 0 then (some .invalidArgument, base)
      else if address % type.align ≠ 0 then (some .invalidArgument, base)
      else if count = 1 then (none, base)
      else sortMany cmp base count type scratchByteLimit memory copies

end Program

/-! ## Writing -/

def segment (f : ℕ → α) (start n : ℕ) : List α := (List.range' start n).map f

theorem segment_succ (f : ℕ → α) (start n : ℕ) :
    segment f start (n + 1) = f start :: segment f (start + 1) n := rfl

theorem segment_add (f : ℕ → α) (start m n : ℕ) :
    segment f start (m + n) = segment f start m ++ segment f (start + m) n := by
  unfold segment
  rw [← List.map_append, List.range'_append_1]

@[simp] theorem length_segment (f : ℕ → α) (start n : ℕ) : (segment f start n).length = n := by
  simp [segment]

theorem segment_congr {f g : ℕ → α} {start n : ℕ}
    (h : ∀ k, start ≤ k → k < start + n → g k = f k) : segment g start n = segment f start n :=
  List.map_congr_left fun k hk => h k (List.mem_range'_1.1 hk).1 (List.mem_range'_1.1 hk).2

theorem take_segment (f : ℕ → α) (start n m : ℕ) :
    (segment f start n).take m = segment f start (min m n) := by
  rw [segment, ← List.map_take]
  rcases Nat.le_total n m with hle | hle
  · rw [List.take_range'_of_length_le hle, Nat.min_eq_right hle]
    rfl
  · rw [List.take_range'_of_length_ge hle, Nat.min_eq_left hle]
    rfl

theorem drop_segment (f : ℕ → α) (start n m : ℕ) :
    (segment f start n).drop m = segment f (start + m) (n - m) := by
  rw [segment, ← List.map_drop, List.drop_range', Nat.mul_one]
  rfl

/-- The list is written from an index on, and nothing else. -/
structure Written (before after : ℕ → α) (output : ℕ) (xs : List α) : Prop where
  segment : segment after output xs.length = xs
  others : ∀ k, k < output ∨ output + xs.length ≤ k → after k = before k

variable {f g h : ℕ → α} {output : ℕ} {xs ys : List α}

theorem Written.nil (f : ℕ → α) (output : ℕ) : Written f f output [] := ⟨rfl, fun _ _ => rfl⟩

theorem Written.move (hwritten : Written f g output []) (output' : ℕ) : Written f g output' [] :=
  ⟨rfl, fun k _ => hwritten.others k (Nat.lt_or_ge k output)⟩

theorem Written.cons {x : α} (hwritten : Written (Function.update f output x) g (output + 1) xs) :
    Written f g output (x :: xs) := by
  constructor
  · rw [List.length_cons, segment_succ, hwritten.segment, hwritten.others output (by omega),
      Function.update_self]
  · intro k hk
    rw [List.length_cons] at hk
    rw [hwritten.others k (by omega), Function.update_of_ne (by omega)]

theorem Written.append (hxs : Written f g output xs) (hys : Written g h (output + xs.length) ys) :
    Written f h output (xs ++ ys) := by
  constructor
  · rw [List.length_append, segment_add, hys.segment]
    congr 1
    refine Eq.trans (segment_congr fun k _ hk => hys.others k (by omega)) hxs.segment
  · intro k hk
    rw [List.length_append] at hk
    rw [hys.others k (by omega), hxs.others k (by omega)]

theorem moveRange_written (source : ℕ → α) (stop : ℕ) (destination : ℕ → α) (next output : ℕ) :
    Written destination (moveRange source stop destination next output).1 output
        (segment source next (stop - next)) ∧
      (moveRange source stop destination next output).2 = output + (stop - next) := by
  fun_induction moveRange source stop destination next output with
  | case1 destination next output hlt ih =>
    obtain ⟨hwritten, houtput⟩ := ih
    have hsub : stop - next = stop - (next + 1) + 1 := by omega
    rw [hsub, segment_succ]
    exact ⟨hwritten.cons, by omega⟩
  | case2 destination next output hge =>
    rw [Nat.sub_eq_zero_of_le (not_lt.1 hge)]
    exact ⟨.nil destination output, rfl⟩

/-! ## Merging -/

section Merging

variable {cmp : α → α → Ordering} {source : ℕ → α}

/-- What both runs write before one of them ends, with the rest that is to be moved. -/
theorem mergeBoth_written {middle right first second : ℕ} {destination after : ℕ → α}
    {first' second' output' : ℕ} (hmerge : mergeBoth cmp source middle right destination first second
      output = (after, first', second', output')) :
    ∃ xs, Written destination after output xs ∧ output' = output + xs.length ∧
      (segment source first (middle - first)).merge (segment source second (right - second))
          (le cmp) =
        xs ++ (segment source first' (middle - first') ++
          segment source second' (right - second')) := by
  fun_induction mergeBoth cmp source middle right destination first second output with
  | case1 destination first second output hboth hle ih =>
    obtain ⟨xs, hwritten, houtput, hrest⟩ := ih hmerge
    have hfirst : middle - first = middle - (first + 1) + 1 := by omega
    have hsecond : right - second = right - (second + 1) + 1 := by omega
    refine ⟨source first :: xs, hwritten.cons, ?_, ?_⟩
    · rw [houtput, List.length_cons]
      omega
    · rw [hsecond, segment_succ] at hrest
      rw [hfirst, hsecond, segment_succ, segment_succ source second, List.cons_merge_cons_pos _ _ _ hle,
        hrest]
      rfl
  | case2 destination first second output hboth hle ih =>
    obtain ⟨xs, hwritten, houtput, hrest⟩ := ih hmerge
    have hfirst : middle - first = middle - (first + 1) + 1 := by omega
    have hsecond : right - second = right - (second + 1) + 1 := by omega
    refine ⟨source second :: xs, hwritten.cons, ?_, ?_⟩
    · rw [houtput, List.length_cons]
      omega
    · rw [hfirst, segment_succ] at hrest
      rw [hfirst, hsecond, segment_succ, segment_succ source second, List.cons_merge_cons_neg _ _ _ hle,
        hrest]
      rfl
  | case3 destination first second output hend =>
    cases hmerge
    refine ⟨[], .nil _ _, rfl, ?_⟩
    rcases not_and_or.1 hend with hfirst | hsecond
    · rw [Nat.sub_eq_zero_of_le (not_lt.1 hfirst)]
      exact List.nil_merge _
    · rw [Nat.sub_eq_zero_of_le (not_lt.1 hsecond)]
      exact (List.merge_right _).trans (List.append_nil _).symm

/-- `sort_merge` writes the merge of the two runs. -/
theorem merge_written (destination : ℕ → α) (left middle right : ℕ) :
    Written destination (merge cmp source destination left middle right) left
      ((segment source left (middle - left)).merge (segment source middle (right - middle))
        (le cmp)) := by
  unfold merge
  rcases hboth : mergeBoth cmp source middle right destination left middle left with
    ⟨merged, first, second, output⟩
  obtain ⟨xs, hmerged, houtput, hrest⟩ := mergeBoth_written hboth
  obtain ⟨hleft, hnext⟩ := moveRange_written source middle merged first output
  dsimp only
  rcases hmove : moveRange source middle merged first output with ⟨moved, output'⟩
  rw [hmove] at hleft hnext
  have hright := (moveRange_written source right moved second output').1
  rw [hrest]
  rw [houtput] at hleft hnext
  dsimp only at hleft hnext ⊢
  rw [hnext] at hright ⊢
  refine hmerged.append (hleft.append ?_)
  rwa [length_segment]

/-- A pass over the buffers is a pass over the lists. -/
theorem mergePass_written {count width : ℕ} (hpos : 0 < width) (destination : ℕ → α) (left : ℕ) :
    Written destination (mergePass cmp source count width destination left) left
      (BottomUpSort.pass cmp width (segment source left (count - left))) := by
  fun_induction mergePass cmp source count width destination left with
  | case1 destination left hmore middle right ih =>
    obtain ⟨-, hleft⟩ := hmore
    have hmerge : Written destination (merge cmp source destination left middle right) left
        ((segment source left (middle - left)).merge (segment source middle (right - middle))
          (le cmp)) := merge_written destination left middle right
    have hsome : segment source left (count - left) ≠ [] := fun hnil => by
      have hlength := length_segment source left (count - left)
      rw [hnil, List.length_nil] at hlength
      omega
    have hfirst : min width (count - left) = middle - left := by
      unfold middle
      split_ifs <;> omega
    have hsecond : segment source (left + width) (min width (count - left - width)) =
        segment source middle (right - middle) := by
      by_cases hend : left + width < count
      · have hmiddle : middle = left + width := if_pos hend
        rw [hmiddle]
        congr 1
        unfold right
        split_ifs <;> omega
      · have hmiddle : middle = count := if_neg hend
        have hright : right ≤ count := by
          unfold right
          split_ifs <;> omega
        rw [hmiddle, Nat.sub_eq_zero_of_le hright,
          show min width (count - left - width) = 0 by omega]
        rfl
    rw [BottomUpSort.pass, dif_pos ⟨hpos, hsome⟩, drop_segment, drop_segment, take_segment, take_segment, hfirst,
      hsecond, Nat.sub_sub]
    refine hmerge.append ?_
    by_cases hrest : left + width * 2 < count
    · have hlength : left + ((segment source left (middle - left)).merge
          (segment source middle (right - middle)) (le cmp)).length = left + width * 2 := by
        rw [← hsecond, List.length_merge, length_segment, length_segment, ← hfirst]
        omega
      rw [hlength]
      exact ih
    · rw [Nat.sub_eq_zero_of_le (not_lt.1 hrest), BottomUpSort.pass, dif_neg fun h => h.2 rfl] at ih ⊢
      exact ih.move _
  | case2 destination left hdone =>
    have hend : count - left = 0 := by
      rw [not_and, not_lt] at hdone
      exact Nat.sub_eq_zero_of_le (hdone hpos)
    rw [hend, BottomUpSort.pass, dif_neg fun h => h.2 rfl]
    exact .nil destination left

variable [Std.TransCmp cmp]

/-- The passes leave the sorted elements in the source. -/
theorem mergePasses_sorted {count width : ℕ} {buffers : Buffers α} (hpos : 0 < width)
    (hruns : Runs cmp width (segment buffers.source 0 count)) :
    Sorted cmp (segment (mergePasses cmp count buffers width).source 0 count) ∧
      Rearranged cmp (segment buffers.source 0 count)
        (segment (mergePasses cmp count buffers width).source 0 count) := by
  fun_induction mergePasses cmp count buffers width with
  | case1 buffers width hmore destination ih =>
    obtain ⟨hpass, hwider⟩ := pass_runs hruns hpos
    have hwritten : Written buffers.destination destination 0
        (BottomUpSort.pass cmp width (segment buffers.source 0 count)) := mergePass_written hpos _ 0
    have hlength : (BottomUpSort.pass cmp width (segment buffers.source 0 count)).length = count := by
      rw [hpass.perm.length_eq, length_segment]
    have hsegment : segment destination 0 count =
        BottomUpSort.pass cmp width (segment buffers.source 0 count) := by
      have hwrote := hwritten.segment
      rwa [hlength] at hwrote
    have hnext : 0 < if count / 2 < width then count else width * 2 := by
      split_ifs
      · exact hmore.1.trans hmore.2
      · exact Nat.mul_pos hpos Nat.two_pos
    have hruns' : Runs cmp (if count / 2 < width then count else width * 2)
        (segment destination 0 count) := by
      rw [hsegment]
      split_ifs with hlast
      · have hall : Sorted cmp (BottomUpSort.pass cmp width (segment buffers.source 0 count)) :=
          hwider.sorted (by rw [hlength]; omega)
        exact hall.runs count
      · exact hwider
    obtain ⟨hsorted, hrest⟩ := ih hnext hruns'
    rw [← hsegment] at hpass
    exact ⟨hsorted, hpass.trans hrest⟩
  | case2 buffers width hdone =>
    refine ⟨hruns.sorted ?_, .refl _⟩
    rw [length_segment]
    exact not_lt.1 fun hlt => hdone ⟨hpos, hlt⟩

end Merging

/-! ## The sort -/

section Results

theorem copyRange_written {copies : ℕ → Bool} {base scratch after : ℕ → α} {count copied : ℕ}
    (hcopy : copyRange copies base count scratch copied = some after) :
    Written scratch after copied (segment base copied (count - copied)) ∧
      ∀ i, copied ≤ i → i < count → copies i = true := by
  fun_induction copyRange copies base count scratch copied with
  | case1 scratch copied hlt hcopies ih =>
    obtain ⟨hwritten, hall⟩ := ih hcopy
    have hsub : count - copied = count - (copied + 1) + 1 := by omega
    rw [hsub, segment_succ]
    refine ⟨hwritten.cons, fun i hle hi => ?_⟩
    rcases Nat.eq_or_lt_of_le hle with rfl | hlt
    · exact hcopies
    · exact hall i hlt hi
  | case2 scratch copied hlt hcopies => cases hcopy
  | case3 scratch copied hge =>
    cases hcopy
    rw [Nat.sub_eq_zero_of_le (not_lt.1 hge)]
    exact ⟨.nil _ _, fun i hle hi => absurd (hle.trans_lt hi) hge⟩

theorem copyRange_isSome {copies : ℕ → Bool} {base scratch : ℕ → α} {count copied : ℕ}
    (hall : ∀ i < count, copies i = true) :
    (copyRange copies base count scratch copied).isSome := by
  fun_induction copyRange copies base count scratch copied with
  | case1 scratch copied hlt hcopies ih => exact ih
  | case2 scratch copied hlt hcopies => exact absurd (hall copied hlt) hcopies
  | case3 scratch copied hge => rfl

variable (cmp : α → α → Ordering)

/-- The sort of more than one element fails and leaves the array, or has copied all elements within
the limit. -/
theorem sortMany_cases (base : ℕ → α) (count : ℕ) (type : ElementType) (scratchByteLimit : ℕ)
    (memory : Memory α) (copies : ℕ → Bool) :
    (∃ status, sortMany cmp base count type scratchByteLimit memory copies = (some status, base)) ∨
    ∃ step scratch, stride type.size type.align = .ok step ∧ count * step ≤ scratchByteLimit ∧
      (∀ i < count, copies i = true) ∧ Written memory.block scratch 0 (segment base 0 count) ∧
        sortMany cmp base count type scratchByteLimit memory copies =
          if (mergePasses cmp count ⟨scratch, base, false⟩ 1).sourceIsBase then
            (none, (mergePasses cmp count ⟨scratch, base, false⟩ 1).source)
          else (none, (moveRange (mergePasses cmp count ⟨scratch, base, false⟩ 1).source count
            (mergePasses cmp count ⟨scratch, base, false⟩ 1).destination 0 0).1) := by
  unfold sortMany
  cases hstride : stride type.size type.align with
  | error status => exact Or.inl ⟨_, rfl⟩
  | ok step =>
    dsimp only
    by_cases hbytes : count ≠ 0 ∧ sizeMax / count < step
    · exact Or.inl ⟨_, if_pos hbytes⟩
    · rw [if_neg hbytes]
      by_cases hlimit : scratchByteLimit < count * step
      · exact Or.inl ⟨_, if_pos hlimit⟩
      · rw [if_neg hlimit]
        cases hallocate : allocate memory count step type.align with
        | some status => exact Or.inl ⟨_, rfl⟩
        | none =>
          cases hcopy : copyRange copies base count memory.block 0 with
          | none => exact Or.inl ⟨_, rfl⟩
          | some scratch =>
            obtain ⟨hwritten, hall⟩ := copyRange_written hcopy
            exact Or.inr ⟨step, scratch, rfl, not_lt.1 hlimit, fun i => hall i (Nat.zero_le i),
              hwritten, rfl⟩

variable {cmp} in
/-- A sort that is done has sorted the array and kept the order of equal elements. -/
theorem sortMany_none [Std.TransCmp cmp] {base : ℕ → α} {count : ℕ} {type : ElementType}
    {scratchByteLimit : ℕ} {memory : Memory α} {copies : ℕ → Bool}
    (hdone : (sortMany cmp base count type scratchByteLimit memory copies).1 = none) :
    Sorted cmp (segment (sortMany cmp base count type scratchByteLimit memory copies).2 0 count) ∧
      Rearranged cmp (segment base 0 count)
        (segment (sortMany cmp base count type scratchByteLimit memory copies).2 0 count) := by
  rcases sortMany_cases cmp base count type scratchByteLimit memory copies with
    ⟨status, hfailed⟩ | ⟨step, scratch, -, -, -, hwritten, hsort⟩
  · rw [hfailed] at hdone
    cases hdone
  · have hscratch : segment scratch 0 count = segment base 0 count := by
      have hwrote := hwritten.segment
      rwa [length_segment] at hwrote
    have hpasses : Sorted cmp (segment (mergePasses cmp count ⟨scratch, base, false⟩ 1).source 0
          count) ∧ Rearranged cmp (segment scratch 0 count)
            (segment (mergePasses cmp count ⟨scratch, base, false⟩ 1).source 0 count) :=
      mergePasses_sorted Nat.one_pos (Runs.one _)
    rw [hscratch] at hpasses
    generalize mergePasses cmp count ⟨scratch, base, false⟩ 1 = buffers at hpasses hsort
    rw [hsort]
    split_ifs
    · exact hpasses
    · have hmoved := (moveRange_written buffers.source count buffers.destination 0 0).1.segment
      rw [length_segment, Nat.sub_zero] at hmoved
      rw [hmoved]
      exact hpasses

theorem sortMany_succeeds {base : ℕ → α} {count step : ℕ} {type : ElementType}
    {scratchByteLimit : ℕ} {memory : Memory α} {copies : ℕ → Bool}
    (hstride : stride type.size type.align = .ok step) (hlimit : count * step ≤ scratchByteLimit)
    (hallocate : allocate memory count step type.align = none)
    (hall : ∀ i < count, copies i = true) :
    (sortMany cmp base count type scratchByteLimit memory copies).1 = none := by
  have hsome : (copyRange copies base count memory.block 0).isSome := copyRange_isSome hall
  obtain ⟨scratch, hcopy⟩ := Option.isSome_iff_exists.1 hsome
  unfold sortMany
  rw [hstride]
  dsimp only
  rw [if_neg (allocate_bytes hallocate), if_neg hlimit.not_gt, hallocate]
  dsimp only
  rw [hcopy]
  dsimp only
  split_ifs <;> rfl

/-- A call fails, has nothing to sort, or sorts more than one element. -/
theorem stableSort_cases (base : ℕ → α) (address count : ℕ) (type : Option ElementType)
    (scratchByteLimit : ℕ) (memory : Memory α) (copies : ℕ → Bool) :
    (∃ status, stableSort cmp base address count type scratchByteLimit memory copies =
      (some status, base)) ∨
    count ≤ 1 ∧ stableSort cmp base address count type scratchByteLimit memory copies =
      (none, base) ∨
    ∃ t, type = some t ∧ stableSort cmp base address count type scratchByteLimit memory copies =
      sortMany cmp base count t scratchByteLimit memory copies := by
  cases type with
  | none => exact Or.inl ⟨_, rfl⟩
  | some t =>
    unfold stableSort
    dsimp only
    split_ifs with _ _ hzero _ _ hone
    · exact Or.inl ⟨_, rfl⟩
    · exact Or.inl ⟨_, rfl⟩
    · exact Or.inr (Or.inl ⟨by omega, rfl⟩)
    · exact Or.inl ⟨_, rfl⟩
    · exact Or.inl ⟨_, rfl⟩
    · exact Or.inr (Or.inl ⟨by omega, rfl⟩)
    · exact Or.inr (Or.inr ⟨t, rfl, rfl⟩)

theorem short_sorted {f : ℕ → α} {count : ℕ} (hcount : count ≤ 1) :
    Sorted cmp (segment f 0 count) := by
  have hcases : count = 0 ∨ count = 1 := by omega
  rcases hcases with rfl | rfl
  · exact .nil
  · exact List.pairwise_singleton _ _

/-- The array of the sort of any call: sorted and rearranged if the call succeeds, and else the one
from before, as it also is when a copy fails or the scratch bytes are too many. A call with what it
needs succeeds. -/
theorem stable_sort_sorts [Std.TransCmp cmp] (base : ℕ → α) (address count : ℕ)
    (type : Option ElementType) (scratchByteLimit : ℕ) (memory : Memory α) (copies : ℕ → Bool) :
    let result := stableSort cmp base address count type scratchByteLimit memory copies
    (result.1 = none → Sorted cmp (segment result.2 0 count) ∧
      Rearranged cmp (segment base 0 count) (segment result.2 0 count)) ∧
    (result.1 ≠ none ∨ (∃ i < count, copies i = false) ∨
      (∃ t step, type = some t ∧ stride t.size t.align = .ok step ∧
        scratchByteLimit < count * step) → result.2 = base) ∧
    (∀ t, type = some t → t.traits = true → address ≠ 0 → address % t.align = 0 →
      ∀ step, stride t.size t.align = .ok step → count * step ≤ scratchByteLimit →
        allocate memory count step t.align = none → (∀ i < count, copies i = true) →
          result.1 = none) := by
  intro result
  refine ⟨fun hdone => ?_, fun hfails => ?_, ?_⟩
  · rcases stableSort_cases cmp base address count type scratchByteLimit memory copies with
      ⟨status, hresult⟩ | ⟨hcount, hresult⟩ | ⟨t, -, hresult⟩
    · rw [show result.1 = some status from congrArg Prod.fst hresult] at hdone
      cases hdone
    · rw [show result.2 = base from congrArg Prod.snd hresult]
      exact ⟨short_sorted cmp hcount, .refl _⟩
    · rw [show result = _ from hresult] at hdone ⊢
      exact sortMany_none hdone
  · rcases stableSort_cases cmp base address count type scratchByteLimit memory copies with
      ⟨status, hresult⟩ | ⟨hcount, hresult⟩ | ⟨t, htype, hresult⟩
    · exact congrArg Prod.snd hresult
    · exact congrArg Prod.snd hresult
    · rw [show result = _ from hresult] at hfails ⊢
      rcases sortMany_cases cmp base count t scratchByteLimit memory copies with
        ⟨status, hfailed⟩ | ⟨step, scratch, hstride, hlimit, hall, -, hsort⟩
      · rw [hfailed]
      · exfalso
        rcases hfails with hstatus | ⟨i, hi, hcopies⟩ | ⟨t', step', htype', hstride', hlimit'⟩
        · rw [hsort] at hstatus
          split_ifs at hstatus <;> exact hstatus rfl
        · rw [hall i hi] at hcopies
          cases hcopies
        · cases htype.symm.trans htype'
          cases hstride.symm.trans hstride'
          omega
  · rintro t rfl htraits haddress halign step hstride hlimit hallocate hall
    have hvalid := stride_valid hstride
    change (stableSort cmp base address count (some t) scratchByteLimit memory copies).1 = none
    unfold stableSort
    dsimp only
    rw [hvalid, htraits, if_neg Bool.false_ne_true, Bool.not_true, if_neg Bool.false_ne_true,
      if_neg haddress, if_neg (not_not.2 halign)]
    split_ifs
    · rfl
    · rfl
    · exact sortMany_succeeds cmp hstride hlimit hallocate hall

/-- Four pairs that are sorted by their first numbers. -/
theorem stable_sort_sorts_four : ∃ array : ℕ → ℕ × ℕ,
    stableSort (compareOn Prod.fst) (fun i => (i % 2, i)) 8 4 (some ⟨4, 4, true⟩) 16
      (.ample (0, 0)) (fun _ => true) = (none, array) ∧
    Sorted (compareOn Prod.fst) (segment array 0 4) ∧
    Rearranged (compareOn Prod.fst) [(0, 0), (1, 1), (0, 2), (1, 3)] (segment array 0 4) := by
  obtain ⟨hsorts, -, hsucceeds⟩ := stable_sort_sorts (compareOn Prod.fst)
    (fun i => (i % 2, i)) 8 4 (some ⟨4, 4, true⟩) 16 (.ample (0, 0)) (fun _ => true)
  have hdone := hsucceeds _ rfl rfl (by decide) rfl 4 rfl le_rfl rfl fun _ _ => rfl
  exact ⟨_, Prod.ext hdone rfl, hsorts hdone⟩

end Results

end Cstl.Sort
