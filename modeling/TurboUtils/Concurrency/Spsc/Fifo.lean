import TurboUtils.Concurrency.Spsc.Ring

/-! The ring is a queue of bytes, as long as no skip marker meets the wrap of the counters. -/
namespace Concurrency.Spsc

/-- What the users of the ring rely on: the consumer releases what the producer released, in
order; it is shown the cells that come next and no others; the count of readable bytes is
right; and the producer's region holds no unread cell. -/
structure Fifo (w : ℕ) (s : System) : Prop where
  order : s.consumed <+: s.produced
  exposed : ∀ offset n, s.exposed = some (offset, n) →
    stored s.ring.data offset n <+: s.produced.drop s.consumed.length
  available : readAvailable w s.ring = s.produced.length - s.consumed.length
  region : ∀ g, s.grant = some g → g.offset + g.required ≤ s.ring.size ∧
    ∀ c ∈ s.produced.drop s.consumed.length, ¬(g.offset ≤ c.1 ∧ c.1 < g.offset + g.required)

/-- No skip marker is left while the unread bytes lie across the wrap of the counters, nor one
whose tail ends there. -/
def MarkerInRange (w : ℕ) (s : System) : Op → Prop
  | .writeRelease _ => s.ring.pendingWrapLen ≠ 0 → s.ring.readPos ≤ s.ring.writePos ∧
      s.ring.writePos + s.ring.pendingWrapLen < 2 ^ w
  | _ => True

/-! ## Cells -/

/-- The cells of `n` positions in a row. -/
def cells (r : Ring) (p n : ℕ) : List Cell :=
  (List.range n).map fun i => ((p + i) % r.size, r.data ((p + i) % r.size))

theorem cells_length (r : Ring) (p n : ℕ) : (cells r p n).length = n := by simp [cells]

theorem cells_add (r : Ring) (p m n : ℕ) :
    cells r p (m + n) = cells r p m ++ cells r (p + m) n := by
  simp [cells, List.range_add, Nat.add_assoc]

theorem cells_congr {r : Ring} {p q : ℕ} (h : p % r.size = q % r.size) (n : ℕ) :
    cells r p n = cells r q n := by
  apply List.map_congr_left
  intro i _
  have hi : (p + i) % r.size = (q + i) % r.size := by
    rw [← Nat.mod_add_mod, h, Nat.mod_add_mod]
  rw [hi]

theorem mod_add_of_lt {size p i : ℕ} (h : p % size + i < size) : (p + i) % size = p % size + i := by
  rw [← Nat.mod_add_mod, Nat.mod_eq_of_lt h]

theorem cells_stored {r : Ring} {p n : ℕ} (h : p % r.size + n ≤ r.size) :
    cells r p n = stored r.data (p % r.size) n := by
  apply List.map_congr_left
  intro i hi
  rw [mod_add_of_lt (by have := List.mem_range.mp hi; omega)]

def unread (w : ℕ) (r : Ring) : List Cell :=
  if r.wrapLen = 0 then cells r r.readPos (Word.sub w r.writePos r.readPos)
  else cells r r.readPos (r.wrapPos - r.readPos) ++
    cells r (r.wrapPos + r.wrapLen) (r.writePos - (r.wrapPos + r.wrapLen))

/-! ## The invariant -/

/-- The positions of a ring of which `u` bytes are in use, the skipped tail included. -/
structure Shape (w : ℕ) (r : Ring) (u : ℕ) : Prop where
  pow : ∃ k < w, r.size = 2 ^ k
  read_lt : r.readPos < 2 ^ w
  write_eq : r.writePos = Word.add w r.readPos u
  used_lt : u < r.size
  marker : r.wrapLen ≠ 0 → r.readPos ≤ r.wrapPos ∧ r.wrapPos + r.wrapLen ≤ r.writePos ∧
    r.size ∣ r.wrapPos + r.wrapLen

namespace Shape

variable {w : ℕ} {r : Ring} {u : ℕ}

theorem dvd (h : Shape w r u) : r.size ∣ 2 ^ w := by
  obtain ⟨k, hk, hsize⟩ := h.pow
  rw [hsize]
  exact Nat.pow_dvd_pow 2 hk.le

theorem pos (h : Shape w r u) : 0 < r.size := by
  have := h.used_lt
  omega

theorem double (h : Shape w r u) : r.size + r.size ≤ 2 ^ w := by
  obtain ⟨k, hk, hsize⟩ := h.pow
  calc r.size + r.size = 2 ^ (k + 1) := by rw [hsize, Nat.pow_succ]; omega
    _ ≤ 2 ^ w := Nat.pow_le_pow_right (by norm_num) hk

theorem mask (h : Shape w r u) (p : ℕ) : p &&& (r.size - 1) = p % r.size := by
  obtain ⟨k, -, hsize⟩ := h.pow
  rw [hsize, Nat.and_two_pow_sub_one_eq_mod]

theorem linear_eq (h : Shape w r u) (p : ℕ) :
    Word.sub w r.size (p % r.size) = r.size - p % r.size := by
  have hdouble := h.double
  have hpos := h.pos
  exact Word.sub_of_le (Nat.mod_lt _ hpos).le (by omega)

theorem write_lt (h : Shape w r u) : r.writePos < 2 ^ w := by
  rw [h.write_eq]
  exact Word.add_lt w _ _

theorem used_eq (h : Shape w r u) : Word.sub w r.writePos r.readPos = u := by
  have hdouble := h.double
  have hlt := h.used_lt
  rw [h.write_eq, Word.sub_add_cancel h.read_lt (by omega)]

theorem write_eq_of_le (h : Shape w r u) (hle : r.readPos ≤ r.writePos) :
    r.writePos = r.readPos + u := by
  have hused := h.used_eq
  rw [Word.sub_of_le hle h.write_lt] at hused
  omega

theorem write_mod (h : Shape w r u) (i : ℕ) :
    (r.writePos + i) % r.size = (r.readPos + (u + i)) % r.size := by
  rw [h.write_eq, ← Nat.mod_add_mod, Word.add_mod h.dvd, Nat.mod_add_mod, Nat.add_assoc]

theorem lap (h : Shape w r u) {p : ℕ} (hp : r.size ∣ p) (hlt : p < 2 ^ w) : p + r.size ≤ 2 ^ w := by
  obtain ⟨c, rfl⟩ := hp
  obtain ⟨d, hd⟩ := h.dvd
  rw [hd] at hlt ⊢
  have hcd : c < d := Nat.lt_of_mul_lt_mul_left hlt
  calc r.size * c + r.size = r.size * (c + 1) := by ring
    _ ≤ r.size * d := Nat.mul_le_mul_left _ hcd

theorem marker_spec (h : Shape w r u) (hw : r.wrapLen ≠ 0) :
    r.readPos ≤ r.wrapPos ∧ r.wrapPos + r.wrapLen ≤ r.writePos ∧
      r.writePos = r.readPos + u ∧ r.wrapPos + r.wrapLen + r.size ≤ 2 ^ w := by
  obtain ⟨hread, hwrite, hdvd⟩ := h.marker hw
  have hlt := h.write_lt
  exact ⟨hread, hwrite, h.write_eq_of_le (by omega), h.lap hdvd (by omega)⟩

/-- Unread cells lie within the bytes in use. -/
theorem mem_unread (h : Shape w r u) {c : Cell} (hc : c ∈ unread w r) :
    ∃ i < u, c = ((r.readPos + i) % r.size, r.data ((r.readPos + i) % r.size)) := by
  unfold unread at hc
  split at hc
  · rw [h.used_eq] at hc
    obtain ⟨i, hi, rfl⟩ := List.mem_map.mp hc
    exact ⟨i, List.mem_range.mp hi, rfl⟩
  next hw =>
    obtain ⟨hread, hwrite, hu, -⟩ := h.marker_spec hw
    rcases List.mem_append.mp hc with hc | hc
    · obtain ⟨i, hi, rfl⟩ := List.mem_map.mp hc
      have hi := List.mem_range.mp hi
      exact ⟨i, by omega, rfl⟩
    · obtain ⟨i, hi, rfl⟩ := List.mem_map.mp hc
      have hi := List.mem_range.mp hi
      refine ⟨r.wrapPos + r.wrapLen - r.readPos + i, by omega, ?_⟩
      rw [show r.readPos + (r.wrapPos + r.wrapLen - r.readPos + i) =
        r.wrapPos + r.wrapLen + i by omega]

end Shape

def front (r : Ring) (u : ℕ) : ℕ := if r.wrapLen = 0 then u else r.wrapPos - r.readPos

/-- The producer's region: it follows the bytes in use, after the tail that is to be skipped. -/
structure GrantOk (r : Ring) (u : ℕ) (g : Grant) : Prop where
  filled : g.bytes.length ≤ g.required
  bytes_eq : ∀ j b, g.bytes[j]? = some b → r.data (g.offset + j) = b
  room : u + r.pendingWrapLen + g.required < r.size
  offset_eq : g.offset = (r.writePos + r.pendingWrapLen) % r.size
  fits : g.offset + g.required ≤ r.size
  pad : r.pendingWrapLen ≠ 0 → r.wrapLen = 0 ∧ r.size ∣ r.writePos + r.pendingWrapLen

structure Inv (w : ℕ) (s : System) (u : ℕ) : Prop where
  shape : Shape w s.ring u
  queue : s.produced = s.consumed ++ unread w s.ring
  grant : ∀ g, s.grant = some g → GrantOk s.ring u g
  exposed : ∀ offset n, s.exposed = some (offset, n) → n ≤ front s.ring u ∧
    (n ≠ 0 → offset = s.ring.readPos % s.ring.size ∧ offset + n ≤ s.ring.size)

/-! ## The calls -/

section calls

variable {w : ℕ} {r : Ring} {u : ℕ}

/-- A region that `salts_spsc_ring_write_acquire` returns follows the bytes in use; only the
pending length of the ring changes. -/
theorem writeAcquire_spec (h : Shape w r u) (required : ℕ) :
    (writeAcquire w r required).1 =
        { r with pendingWrapLen := (writeAcquire w r required).1.pendingWrapLen } ∧
      ∀ offset, (writeAcquire w r required).2 = some offset →
        GrantOk (writeAcquire w r required).1 u ⟨offset, required, []⟩ := by
  have hdouble := h.double
  have hused := h.used_lt
  have hmod := Nat.mod_lt r.writePos h.pos
  have havailable : Word.sub w (Word.sub w r.size u) 1 = r.size - u - 1 := by
    rw [Word.sub_of_le hused.le (by omega), Word.sub_of_le (by omega) (by omega)]
  simp only [writeAcquire, h.used_eq, h.linear_eq, h.mask, havailable]
  split
  · exact ⟨rfl, fun offset ho => absurd ho (by simp)⟩
  next hfit =>
  rw [not_or, not_le, not_lt] at hfit
  split
  next hlinear =>
    rw [Word.add_of_lt (by omega)]
    split
    · exact ⟨rfl, fun offset ho => absurd ho (by simp)⟩
    next hroom =>
    rw [not_or, not_not, not_lt] at hroom
    -- the region starts over, behind a tail that ends a lap
    have hlap : r.size ∣ r.writePos + (r.size - r.writePos % r.size) := by
      have hdiv := Nat.div_add_mod r.writePos r.size
      refine ⟨r.writePos / r.size + 1, ?_⟩
      rw [Nat.mul_add]
      omega
    refine ⟨rfl, fun offset ho => ?_⟩
    obtain rfl := Option.some.inj ho
    refine ⟨Nat.zero_le _, fun j b hb => absurd hb (by simp), ?_, ?_, ?_, fun _ => ⟨hroom.1, hlap⟩⟩
    · dsimp only
      omega
    · exact (Nat.mod_eq_zero_of_dvd hlap).symm
    · dsimp only
      omega
  next hlinear =>
    refine ⟨rfl, fun offset ho => ?_⟩
    obtain rfl := Option.some.inj ho
    refine ⟨Nat.zero_le _, fun j b hb => absurd hb (by simp), ?_, rfl, ?_, fun hne => absurd rfl hne⟩
    · dsimp only
      omega
    · dsimp only
      omega

theorem expose_spec (h : Shape w r u) {read wrapLen offset n : ℕ}
    (he : expose w r read wrapLen = some (offset, n)) :
    n ≤ (if wrapLen ≠ 0 ∧ read < r.wrapPos then Word.sub w r.wrapPos read
        else Word.sub w r.writePos read) ∧
      offset = read % r.size ∧ offset + n ≤ r.size := by
  have hmod := Nat.mod_lt read h.pos
  simp only [expose, h.mask, h.linear_eq] at he
  generalize (if wrapLen ≠ 0 ∧ read < r.wrapPos then Word.sub w r.wrapPos read
    else Word.sub w r.writePos read) = available at he ⊢
  split at he
  · exact absurd he (by simp)
  obtain ⟨rfl, rfl⟩ := Prod.mk.inj (Option.some.inj he)
  split
  · exact ⟨le_rfl, rfl, by omega⟩
  · exact ⟨by omega, rfl, by omega⟩

theorem GrantOk.mono {r' : Ring} {u' : ℕ} {g : Grant} (h : GrantOk r u g)
    (hr' : r' = { r with readPos := r'.readPos, wrapLen := r'.wrapLen }) (hu : u' ≤ u)
    (hwrap : r.wrapLen = 0 → r'.wrapLen = 0) : GrantOk r' u' g := by
  rw [hr']
  have hroom := h.room
  refine ⟨h.filled, h.bytes_eq, ?_, h.offset_eq, h.fits, fun hne => ?_⟩
  · dsimp only
    omega
  · exact ⟨hwrap (h.pad hne).1, (h.pad hne).2⟩

/-- `salts_spsc_ring_read_acquire` jumps over a marker it has reached, and hands out the bytes
before the next one. -/
theorem readAcquire_spec (h : Shape w r u) :
    ∃ u' ≤ u, Shape w (readAcquire w r).1 u' ∧
      (readAcquire w r).1 = { r with
        readPos := (readAcquire w r).1.readPos, wrapLen := (readAcquire w r).1.wrapLen } ∧
      (r.wrapLen = 0 → (readAcquire w r).1.wrapLen = 0) ∧
      unread w (readAcquire w r).1 = unread w r ∧
      ∀ offset n, (readAcquire w r).2 = some (offset, n) → n ≤ front (readAcquire w r).1 u' ∧
        offset = (readAcquire w r).1.readPos % r.size ∧ offset + n ≤ r.size := by
  have hlt := h.write_lt
  unfold readAcquire
  dsimp only
  split
  next hat =>
    obtain ⟨hw, hat⟩ := hat
    obtain ⟨-, hwrite, hu, hlap⟩ := h.marker_spec hw
    have hused := h.used_lt
    rw [hat, Word.add_of_lt (by omega), if_neg (by omega)]
    refine ⟨r.writePos - (r.wrapPos + r.wrapLen), by omega, ?_, rfl, fun _ => rfl, ?_, ?_⟩
    · refine ⟨h.pow, by dsimp only; omega, ?_, by dsimp only; omega, fun hne => absurd rfl hne⟩
      rw [Word.add_of_lt (by dsimp only; omega)]
      dsimp only
      omega
    · rw [unread, unread, if_pos rfl, if_neg hw, hat, Nat.sub_self]
      dsimp only
      rw [Word.sub_of_le hwrite hlt]
      rfl
    · intro offset n he
      obtain ⟨hn, hoffset, hfit⟩ := expose_spec h he
      rw [if_neg (by omega), Word.sub_of_le hwrite hlt] at hn
      exact ⟨by rw [front, if_pos rfl]; exact hn, hoffset, hfit⟩
  next hnot =>
    refine ⟨u, le_rfl, h, rfl, id, rfl, ?_⟩
    intro offset n he
    obtain ⟨hn, hoffset, hfit⟩ := expose_spec h he
    refine ⟨?_, hoffset, hfit⟩
    rw [h.used_eq] at hn
    unfold front
    dsimp only
    split
    next hw =>
      rw [if_neg (by omega)] at hn
      exact hn
    next hw =>
      obtain ⟨hread, hwrite, -, -⟩ := h.marker_spec hw
      rw [if_pos (by omega), Word.sub_of_le hread (by omega)] at hn
      exact hn

theorem unread_data (r : Ring) (data : ℕ → Byte) :
    unread w { r with data } = (unread w r).map fun c => (c.1, data c.1) := by
  have hcells : ∀ p n, cells { r with data } p n = (cells r p n).map fun c => (c.1, data c.1) := by
    intro p n
    simp [cells]
  unfold unread
  dsimp only
  split <;> simp only [hcells, List.map_append]

/-- Bytes released without a marker. -/
theorem unread_extend (h : Shape w r u) {n : ℕ} (hroom : u + n < r.size) :
    unread w { r with writePos := Word.add w r.writePos n } = unread w r ++ cells r r.writePos n := by
  have hdouble := h.double
  unfold unread
  dsimp only
  split
  next hw =>
    have hmod : r.writePos % r.size = (r.readPos + u) % r.size := by
      rw [h.write_eq, Word.add_mod h.dvd]
    rw [h.used_eq, h.write_eq, Word.add_add, Word.sub_add_cancel h.read_lt (by omega), ← h.write_eq,
      cells_congr hmod, ← cells_add]
    rfl
  next hw =>
    obtain ⟨hread, hwrite, hu, hbound⟩ := h.marker_spec hw
    rw [Word.add_of_lt (by omega), List.append_assoc,
      show r.writePos + n - (r.wrapPos + r.wrapLen) =
        r.writePos - (r.wrapPos + r.wrapLen) + n by omega]
    congr 1
    rw [show cells r r.writePos n =
        cells r (r.wrapPos + r.wrapLen + (r.writePos - (r.wrapPos + r.wrapLen))) n by
      rw [Nat.add_sub_cancel' hwrite], ← cells_add]
    rfl

/-- Bytes released by the consumer, up to the marker. -/
theorem readRelease_spec (h : Shape w r u) {n : ℕ} (hn : n ≤ front r u) :
    Shape w (readRelease w r n) (u - n) ∧
      unread w r = cells r r.readPos n ++ unread w (readRelease w r n) ∧
      front (readRelease w r n) (u - n) = front r u - n ∧ n ≤ u := by
  have hdouble := h.double
  have hused := h.used_lt
  unfold front at hn ⊢
  unfold readRelease
  dsimp only
  split at hn
  next hw =>
    have hwrite : r.writePos = Word.add w (Word.add w r.readPos n) (u - n) := by
      rw [Word.add_add, Nat.add_sub_cancel' hn, h.write_eq]
    have hshape : Shape w { r with readPos := Word.add w r.readPos n } (u - n) :=
      ⟨h.pow, Word.add_lt w _ _, hwrite, by dsimp only; omega, fun hne => absurd hw hne⟩
    refine ⟨hshape, ?_, by rw [if_pos hw, if_pos hw], hn⟩
    rw [unread, unread, if_pos hw, if_pos hw, hshape.used_eq, h.used_eq]
    dsimp only
    rw [show cells { r with readPos := Word.add w r.readPos n } (Word.add w r.readPos n) (u - n) =
      cells r (r.readPos + n) (u - n) from cells_congr (Word.add_mod h.dvd _ _) _, ← cells_add,
      Nat.add_sub_cancel' hn]
  next hw =>
    obtain ⟨hread, hwrite, hu, hbound⟩ := h.marker_spec hw
    obtain ⟨-, -, hdvd⟩ := h.marker hw
    rw [Word.add_of_lt (by omega)]
    refine ⟨⟨h.pow, by dsimp only; omega, ?_, by dsimp only; omega, fun _ => ?_⟩, ?_, ?_, by omega⟩
    · rw [Word.add_of_lt (by dsimp only; omega)]
      dsimp only
      omega
    · exact ⟨by dsimp only; omega, hwrite, hdvd⟩
    · rw [unread, unread, if_neg hw, if_neg hw, ← List.append_assoc]
      congr 1
      rw [show r.wrapPos - r.readPos = n + (r.wrapPos - (r.readPos + n)) by omega, cells_add]
      rfl
    · rw [if_neg hw, if_neg hw]
      omega

end calls

/-! ## What the invariant gives -/

namespace Inv

variable {w : ℕ} {s : System} {u : ℕ}

theorem drop_eq (h : Inv w s u) : s.produced.drop s.consumed.length = unread w s.ring := by
  rw [h.queue, List.drop_left]

theorem unread_front (h : Inv w s u) :
    ∃ rest, unread w s.ring = cells s.ring s.ring.readPos (front s.ring u) ++ rest := by
  unfold unread front
  split
  · exact ⟨[], by rw [h.shape.used_eq, List.append_nil]⟩
  · exact ⟨_, rfl⟩

theorem exposed_cells (h : Inv w s u) {offset n : ℕ} (he : s.exposed = some (offset, n)) :
    stored s.ring.data offset n = cells s.ring s.ring.readPos n := by
  obtain ⟨-, hat⟩ := h.exposed offset n he
  by_cases hn : n = 0
  · subst hn
    simp [stored, cells]
  · obtain ⟨rfl, hfit⟩ := hat hn
    rw [cells_stored hfit]

theorem readAvailable_eq (h : Inv w s u) :
    readAvailable w s.ring = (unread w s.ring).length := by
  have hlt := h.shape.write_lt
  unfold readAvailable unread
  dsimp only
  by_cases hw : s.ring.wrapLen = 0
  · simp [hw, cells_length]
  · obtain ⟨hread, hwrite, -, -⟩ := h.shape.marker_spec hw
    rw [if_neg hw, List.length_append, cells_length, cells_length,
      Word.sub_of_le (by omega) hlt, Word.sub_of_le (a := s.ring.writePos) (by omega) hlt,
      Word.add_of_lt (a := s.ring.wrapPos) (by omega)]
    by_cases hat : s.ring.readPos = s.ring.wrapPos
    · rw [if_pos ⟨hw, hat, by rw [hat, Word.add_of_lt (by omega)]; exact hwrite⟩,
        Word.sub_of_le (by omega) (by omega)]
      omega
    · rw [if_neg fun hcond => hat hcond.2.1, if_pos ⟨hw, by omega, hwrite⟩,
        Word.sub_of_le hread (by omega), Word.sub_of_le (by omega) (by omega),
        Word.add_of_lt (by omega)]
      omega

theorem region_apart (h : Inv w s u) {g : Grant} (hg : s.grant = some g) {c : Cell}
    (hc : c ∈ unread w s.ring) {j : ℕ} (hj : j < g.required) : c.1 ≠ g.offset + j := by
  have hok := h.grant g hg
  obtain ⟨i, hi, rfl⟩ := h.shape.mem_unread hc
  have hroom := hok.room
  have hfits := hok.fits
  have hpos : g.offset + j = (s.ring.readPos + (u + (s.ring.pendingWrapLen + j))) % s.ring.size := by
    rw [← h.shape.write_mod, ← Nat.add_assoc, hok.offset_eq]
    rw [hok.offset_eq] at hfits
    exact (mod_add_of_lt (by omega)).symm
  rw [hpos]
  exact Word.mod_ne (by omega) (by omega)

theorem fifo (h : Inv w s u) : Fifo w s := by
  constructor
  · rw [h.queue]
    exact List.prefix_append _ _
  · intro offset n he
    obtain ⟨hn, -⟩ := h.exposed offset n he
    obtain ⟨rest, hrest⟩ := h.unread_front
    rw [h.drop_eq, hrest, h.exposed_cells he, ← Nat.add_sub_cancel' hn, cells_add,
      List.append_assoc]
    exact List.prefix_append _ _
  · rw [h.readAvailable_eq, ← h.drop_eq, List.length_drop]
  · intro g hg
    refine ⟨(h.grant g hg).fits, fun c hc hin => ?_⟩
    rw [h.drop_eq] at hc
    exact h.region_apart hg hc (j := c.1 - g.offset) (by omega) (by omega)

/-! ## Steps of the producer -/

theorem writeAcquire (h : Inv w s u) {required : ℕ} {s' : System}
    (hs' : s.step w (.writeAcquire required) = some s') : Inv w s' u := by
  rw [System.step] at hs'
  split at hs'
  · exact absurd hs' (by simp)
  obtain ⟨hsame, hgrant⟩ := writeAcquire_spec h.shape required
  generalize Spsc.writeAcquire w s.ring required = answer at hs' hsame hgrant
  obtain ⟨ring, region⟩ := answer
  obtain rfl := Option.some.inj hs'
  dsimp only at hsame hgrant ⊢
  rw [hsame]
  refine ⟨⟨h.shape.pow, h.shape.read_lt, h.shape.write_eq, h.shape.used_lt, h.shape.marker⟩,
    h.queue, fun g hg => ?_, h.exposed⟩
  obtain ⟨offset, ho, rfl⟩ := Option.map_eq_some_iff.mp hg
  have hok := hgrant offset ho
  rw [hsame] at hok
  exact hok

/-- Bytes written into the region change no unread cell. -/
theorem write (h : Inv w s u) {bytes : List Byte} {s' : System}
    (hs' : s.step w (.write bytes) = some s') : Inv w s' u := by
  simp only [System.step] at hs'
  split at hs'
  · exact absurd hs' (by simp)
  next g hg =>
  split at hs'
  next hfit =>
    obtain rfl := Option.some.inj hs'
    have hok := h.grant g hg
    have hkeep : ∀ c ∈ unread w s.ring,
        store s.ring.data (g.offset + g.bytes.length) bytes c.1 = s.ring.data c.1 := by
      intro c hc
      unfold store
      split
      next hle =>
        rw [List.getElem?_eq_none, Option.getD_none]
        by_contra hlt
        exact h.region_apart hg hc (j := c.1 - g.offset) (by omega) (by omega)
      · rfl
    refine ⟨⟨h.shape.pow, h.shape.read_lt, h.shape.write_eq, h.shape.used_lt, h.shape.marker⟩,
      ?_, fun g' hg' => ?_, h.exposed⟩
    · rw [unread_data, h.queue]
      congr 1
      symm
      apply (List.map_congr_left _).trans (List.map_id _)
      intro c hc
      obtain ⟨i, -, rfl⟩ := h.shape.mem_unread hc
      rw [hkeep _ hc]
      rfl
    · obtain rfl := Option.some.inj hg'
      refine ⟨by simpa using hfit, ?_, hok.room, hok.offset_eq, hok.fits, hok.pad⟩
      intro j b hb
      simp only [store]
      rw [List.getElem?_append] at hb
      split at hb
      next hj =>
        rw [if_neg (by omega)]
        exact hok.bytes_eq j b hb
      next hj =>
        rw [if_pos (by omega), show g.offset + j - (g.offset + g.bytes.length) =
          j - g.bytes.length by omega, hb, Option.getD_some]
  · exact absurd hs' (by simp)

theorem released_eq (h : Inv w s u) {g : Grant} (hg : s.grant = some g) {n : ℕ}
    (hn : n ≤ g.bytes.length) :
    ((g.bytes.take n).mapIdx fun i b => (g.offset + i, b)) =
      cells s.ring (s.ring.writePos + s.ring.pendingWrapLen) n := by
  have hok := h.grant g hg
  have hfilled := hok.filled
  have hfits := hok.fits
  have hoffset := hok.offset_eq
  rw [cells_stored (by omega), ← hoffset]
  apply List.ext_getElem?
  intro i
  by_cases hi : i < n
  · have hb : g.bytes[i]? = some (g.bytes.get ⟨i, by omega⟩) := by simp
    simp [stored, hi, hb, hok.bytes_eq i _ hb]
  · simp [stored, hi]

theorem writeRelease (h : Inv w s u) {n : ℕ} (hin : MarkerInRange w s (.writeRelease n))
    {s' : System} (hs' : s.step w (.writeRelease n) = some s') : ∃ u', Inv w s' u' := by
  have hshape := h.shape
  rw [System.step] at hs'
  split at hs'
  · exact absurd hs' (by simp)
  next g hg =>
  split at hs'
  next hn =>
    obtain rfl := Option.some.inj hs'
    have hok := h.grant g hg
    have hfilled := hok.filled
    have hroom := hok.room
    rw [released_eq h hg hn, h.queue, List.append_assoc]
    unfold Spsc.writeRelease
    dsimp only
    split
    next hpad =>
      -- a marker is left at the old position of the producer
      obtain ⟨hw, hlap⟩ := hok.pad hpad
      obtain ⟨hle, hend⟩ := hin hpad
      have hwrite := hshape.write_eq_of_le hle
      have hbound := hshape.lap hlap hend
      rw [Word.add_of_lt hend, Word.add_of_lt (by omega)]
      refine ⟨u + s.ring.pendingWrapLen + n, ⟨⟨hshape.pow, hshape.read_lt, ?_, ?_, ?_⟩, ?_, ?_, ?_⟩⟩
      · rw [Word.add_of_lt (by dsimp only; omega)]
        dsimp only
        omega
      · dsimp only
        omega
      · exact fun _ => ⟨hle, by dsimp only; omega, hlap⟩
      · rw [unread, unread, if_pos hw, if_neg hpad, hshape.used_eq]
        dsimp only
        rw [show s.ring.writePos - s.ring.readPos = u by omega, Nat.add_sub_cancel_left]
        rfl
      · exact fun g hg => absurd hg (by simp)
      · intro offset m he
        obtain ⟨hm, hat⟩ := h.exposed offset m he
        rw [front, if_pos hw] at hm
        refine ⟨?_, hat⟩
        rw [front, if_neg hpad]
        dsimp only
        omega
    next hpad =>
      rw [not_not] at hpad
      rw [hpad, Nat.add_zero] at hroom ⊢
      refine ⟨u + n, ⟨⟨hshape.pow, hshape.read_lt, ?_, by dsimp only; omega, ?_⟩, ?_, ?_, ?_⟩⟩
      · dsimp only
        rw [hshape.write_eq, Word.add_add]
      · intro hw
        obtain ⟨hread, hwrite, hu, hbound⟩ := hshape.marker_spec hw
        obtain ⟨-, -, hdvd⟩ := hshape.marker hw
        refine ⟨hread, ?_, hdvd⟩
        dsimp only
        rw [Word.add_of_lt (by omega)]
        omega
      · exact congrArg (s.consumed ++ ·) (unread_extend hshape (by omega)).symm
      · exact fun g hg => absurd hg (by simp)
      · intro offset m he
        obtain ⟨hm, hat⟩ := h.exposed offset m he
        refine ⟨hm.trans ?_, hat⟩
        unfold front
        dsimp only
        split <;> omega
  · exact absurd hs' (by simp)

/-! ## Steps of the consumer -/

theorem readAcquire (h : Inv w s u) {s' : System} (hs' : s.step w .readAcquire = some s') :
    ∃ u', Inv w s' u' := by
  rw [System.step] at hs'
  obtain ⟨u', hu, hshape, hsame, hwrap, hunread, hexposed⟩ := readAcquire_spec h.shape
  generalize Spsc.readAcquire w s.ring = answer at hs' hshape hsame hwrap hunread hexposed
  obtain ⟨ring, exposed⟩ := answer
  obtain rfl := Option.some.inj hs'
  dsimp only at hshape hsame hwrap hunread hexposed
  refine ⟨u', hshape, ?_, fun g hg => (h.grant g hg).mono hsame hu hwrap, ?_⟩
  · rw [h.queue, ← hunread]
  · intro offset n he
    obtain ⟨hn, hoffset, hfit⟩ := hexposed offset n he
    have hsize : ring.size = s.ring.size := by rw [hsame]
    exact ⟨hn, fun _ => ⟨by dsimp only; rw [hsize, hoffset], by dsimp only; omega⟩⟩

theorem readRelease (h : Inv w s u) {n : ℕ} {s' : System}
    (hs' : s.step w (.readRelease n) = some s') : ∃ u', Inv w s' u' := by
  have hshape := h.shape
  rw [System.step] at hs'
  split at hs'
  · exact absurd hs' (by simp)
  next offset available he =>
  split at hs'
  next hn =>
    obtain rfl := Option.some.inj hs'
    obtain ⟨hfront, hat⟩ := h.exposed offset available he
    have hcells : stored s.ring.data offset n = cells s.ring s.ring.readPos n := by
      by_cases h0 : n = 0
      · subst h0
        simp [stored, cells]
      · obtain ⟨rfl, hfit⟩ := hat (by omega)
        rw [cells_stored (by omega)]
    obtain ⟨hshape', hunread, hfront', hle⟩ := readRelease_spec hshape (hn.trans hfront)
    refine ⟨u - n, hshape', ?_, fun g hg => (h.grant g hg).mono rfl (by omega) id, ?_⟩
    · rw [h.queue, hunread, hcells, List.append_assoc]
    · intro offset' m hm
      obtain ⟨rfl, rfl⟩ := Prod.mk.inj (Option.some.inj hm)
      refine ⟨by rw [hfront']; omega, fun hne => ?_⟩
      obtain ⟨rfl, hfit⟩ := hat (by omega)
      refine ⟨?_, by dsimp only [Spsc.readRelease]; omega⟩
      dsimp only [Spsc.readRelease]
      rw [Word.add_mod hshape.dvd, mod_add_of_lt (by omega)]
  · exact absurd hs' (by simp)

end Inv

/-! ## Runs -/

theorem init_spec {w size : ℕ} {storage : ℕ → Byte} {ring : Ring}
    (h : init storage size = some ring) (hw : size < 2 ^ w) : Inv w (start ring) 0 := by
  unfold init at h
  split at h
  next hpow =>
    obtain rfl := Option.some.inj h
    obtain ⟨k, hk⟩ := Nat.ne_zero_and_sub_one_eq_zero_iff_isPowerOfTwo.mp hpow
    have hkw : k < w := by
      rw [hk] at hw
      exact (Nat.pow_lt_pow_iff_right (by norm_num)).mp hw
    refine ⟨⟨⟨k, hkw, hk⟩, Nat.two_pow_pos w, ?_, Nat.pos_of_ne_zero hpow.1, ?_⟩, ?_, ?_, ?_⟩
    · exact (Nat.zero_mod _).symm
    · exact fun hne => absurd rfl hne
    · have hzero : Word.sub w 0 0 = 0 := Word.sub_of_le le_rfl (Nat.two_pow_pos w)
      simp [start, unread, cells, hzero]
    · exact fun g hg => absurd hg (by simp [start])
    · exact fun offset n he => absurd he (by simp [start])
  · exact absurd h (by simp)

theorem Inv.step {w : ℕ} {s s' : System} {u : ℕ} {op : Op} (h : Inv w s u)
    (hin : MarkerInRange w s op) (hs' : s.step w op = some s') : ∃ u', Inv w s' u' := by
  cases op with
  | writeAcquire required => exact ⟨u, h.writeAcquire hs'⟩
  | write bytes => exact ⟨u, h.write hs'⟩
  | writeRelease written => exact h.writeRelease hin hs'
  | readAcquire => exact h.readAcquire hs'
  | readRelease n => exact h.readRelease hs'

/-- In every run whose skip markers keep clear of the wrap of the counters the ring is a queue
of bytes. -/
theorem spsc_ring_fifo {w size : ℕ} {storage : ℕ → Byte} {ring : Ring} {s : System}
    (hinit : init storage size = some ring) (hw : size < 2 ^ w)
    (h : Reaches w (MarkerInRange w) ring s) : Fifo w s := by
  have hinv : ∃ u, Inv w s u := by
    induction h with
    | start => exact ⟨0, init_spec hinit hw⟩
    | step _ hin hs' ih =>
      obtain ⟨u, hu⟩ := ih
      exact hu.step hin hs'
  obtain ⟨u, hu⟩ := hinv
  exact hu.fifo

/-- Four bytes of storage. -/
def smallRing : Ring := ⟨4, fun _ => 0, 0, 0, 0, 0, 0⟩

theorem Reaches.next {w : ℕ} {allowed : System → Op → Prop} {ring : Ring} {s s' : System}
    (h : Reaches w allowed ring s) (op : Op) (hop : allowed s op) (hs' : s.step w op = some s') :
    Reaches w allowed ring s' := h.step hop hs'

/-- A run over the end of the storage: two bytes behind a skipped tail of one. -/
theorem spsc_ring_fifo_marker : ∃ s, s.ring.wrapLen = 1 ∧ Fifo 64 s := by
  have h0 : Reaches 64 (MarkerInRange 64) smallRing (start smallRing) := .start
  have h1 := h0.next (.writeAcquire 3) trivial rfl
  have h2 := h1.next (.write [1, 2, 3]) trivial rfl
  have h3 := h2.next (.writeRelease 3) (fun hne => absurd rfl hne) rfl
  have h4 := h3.next .readAcquire trivial rfl
  have h5 := h4.next (.readRelease 3) trivial rfl
  have h6 := h5.next (.writeAcquire 2) trivial rfl
  have h7 := h6.next (.write [4, 5]) trivial rfl
  have h8 := h7.next (.writeRelease 2) (fun _ => by decide) rfl
  have hinit : init (fun _ => 0) 4 = some smallRing := rfl
  exact ⟨_, rfl, spsc_ring_fifo hinit (by decide) h8⟩

/-! ## The wrap of the counters -/

/-- Producer and consumer both at `p`, over storage that holds zeros. -/
structure Level (p : ℕ) (s : System) : Prop where
  ring_eq : s.ring = { smallRing with writePos := p, readPos := p }
  even : s.produced.length = s.consumed.length

/-- One byte through the ring moves both positions on. -/
theorem Level.round {w p : ℕ} {s : System} (hw : 4 < 2 ^ w) (hs : Reaches w (fun _ _ => True) smallRing s)
    (h : Level p s) (hp : p < 2 ^ w) :
    ∃ s', Reaches w (fun _ _ => True) smallRing s' ∧ Level (Word.add w p 1) s' := by
  have hmask : p &&& 3 = p % 4 := Nat.and_two_pow_sub_one_eq_mod p 2
  have hmod := Nat.mod_lt p (show 0 < 4 by norm_num)
  have hzero : Word.sub w p p = 0 := by rw [Word.sub_of_le le_rfl hp, Nat.sub_self]
  have hone : Word.sub w (Word.add w p 1) p = 1 := Word.sub_add_cancel hp (by omega)
  have hlinear : Word.sub w 4 (p % 4) = 4 - p % 4 := Word.sub_of_le (by omega) hw
  have hstore : store (fun _ => 0) (p % 4) [0] = fun _ => (0 : Byte) := by
    funext i
    simp only [store]
    split
    · cases i - p % 4 <;> simp
    · rfl
  have hwhole : Word.sub w 4 0 = 4 := Word.sub_of_le (by norm_num) hw
  have hroom : Word.sub w 4 1 = 3 := Word.sub_of_le (by norm_num) hw
  obtain ⟨ring, grant, exposed, produced, consumed⟩ := s
  obtain ⟨rfl, heven⟩ := h
  have h1 : System.step w ⟨{ smallRing with writePos := p, readPos := p }, grant, exposed,
      produced, consumed⟩ (.writeAcquire 1) = some ⟨{ smallRing with writePos := p, readPos := p },
      some ⟨p % 4, 1, []⟩, exposed, produced, consumed⟩ := by
    have hfits : ¬4 - p % 4 < 1 := by omega
    simp [System.step, writeAcquire, smallRing, hmask, hzero, hlinear, hwhole, hroom, hfits]
  have h2 : System.step w ⟨{ smallRing with writePos := p, readPos := p }, some ⟨p % 4, 1, []⟩,
      exposed, produced, consumed⟩ (.write [0]) = some ⟨{ smallRing with
      writePos := p, readPos := p }, some ⟨p % 4, 1, [0]⟩, exposed, produced, consumed⟩ := by
    simp [System.step, smallRing, hstore]
  have h3 : System.step w ⟨{ smallRing with writePos := p, readPos := p }, some ⟨p % 4, 1, [0]⟩,
      exposed, produced, consumed⟩ (.writeRelease 1) = some ⟨{ smallRing with
      writePos := Word.add w p 1, readPos := p }, none, exposed, produced ++ [(p % 4, 0)],
      consumed⟩ := by
    simp [System.step, writeRelease, smallRing]
  have h4 : System.step w ⟨{ smallRing with writePos := Word.add w p 1, readPos := p }, none,
      exposed, produced ++ [(p % 4, 0)], consumed⟩ .readAcquire = some ⟨{ smallRing with
      writePos := Word.add w p 1, readPos := p }, none, some (p % 4, 1),
      produced ++ [(p % 4, 0)], consumed⟩ := by
    have hlen : (if 1 < 4 - p % 4 then 1 else 4 - p % 4) = 1 := by
      split <;> omega
    simp [System.step, readAcquire, expose, smallRing, hone, hmask, hlinear, hlen]
  have h5 : System.step w ⟨{ smallRing with writePos := Word.add w p 1, readPos := p }, none,
      some (p % 4, 1), produced ++ [(p % 4, 0)], consumed⟩ (.readRelease 1) =
      some ⟨{ smallRing with writePos := Word.add w p 1, readPos := Word.add w p 1 }, none,
      some (p % 4 + 1, 0), produced ++ [(p % 4, 0)], consumed ++ [(p % 4, 0)]⟩ := by
    simp [System.step, readRelease, smallRing, stored]
  refine ⟨_, ((((hs.next _ trivial h1).next _ trivial h2).next _ trivial h3).next _ trivial
    h4).next _ trivial h5, rfl, ?_⟩
  simpa using heven

theorem Level.reach {w : ℕ} (hw : 4 < 2 ^ w) (n : ℕ) :
    ∃ s, Reaches w (fun _ _ => True) smallRing s ∧ Level (n % 2 ^ w) s := by
  induction n with
  | zero =>
    rw [Nat.zero_mod]
    exact ⟨start smallRing, .start, rfl, rfl⟩
  | succ n ih =>
    obtain ⟨s, hs, hlevel⟩ := ih
    obtain ⟨s', hs', hlevel'⟩ := hlevel.round hw hs (Nat.mod_lt _ (by omega))
    refine ⟨s', hs', ?_⟩
    rw [Word.add, Nat.mod_add_mod] at hlevel'
    exact hlevel'

/-- Once both positions stand one before the wrap, two bytes behind a skipped tail of one let the
consumer see all four bytes of the storage. -/
theorem Level.stale {w p : ℕ} {s : System} (hw : 4 < 2 ^ w) (hs : Reaches w (fun _ _ => True) smallRing s)
    (h : Level p s) (hp : p + 1 = 2 ^ w) : ∃ s', Reaches w (fun _ _ => True) smallRing s' ∧
      s'.exposed = some (0, 4) ∧ s'.produced.length = s'.consumed.length + 2 := by
  have hlt : p < 2 ^ w := by omega
  have hmask : p &&& 3 = 3 := by
    have hexp : 2 < w := by
      rw [show 4 = 2 ^ 2 by norm_num] at hw
      exact (Nat.pow_lt_pow_iff_right one_lt_two).mp hw
    obtain ⟨k, hk⟩ : 2 ^ 2 ∣ 2 ^ w := Nat.pow_dvd_pow 2 hexp.le
    rw [show p &&& 3 = p % 4 from Nat.and_two_pow_sub_one_eq_mod p 2]
    omega
  have hused : Word.sub w p p = 0 := by rw [Word.sub_of_le le_rfl hlt, Nat.sub_self]
  have hjump : Word.add w p 1 = 0 := by rw [Word.add, hp, Nat.mod_self]
  have hpad : Word.add w (Word.add w p 1) 2 = 2 := by rw [hjump, Word.add_of_lt (by omega)]
  have hhuge : Word.sub w p 0 = p := Word.sub_of_le (Nat.zero_le p) hlt
  have hwhole : Word.sub w 4 0 = 4 := Word.sub_of_le (by norm_num) hw
  have hroom : Word.sub w 4 1 = 3 := Word.sub_of_le (by norm_num) hw
  have hlinear : Word.sub w 4 3 = 1 := Word.sub_of_le (by norm_num) hw
  have hfits : Word.add w 2 1 = 3 := Word.add_of_lt (by omega)
  obtain ⟨ring, grant, exposed, produced, consumed⟩ := s
  obtain ⟨rfl, heven⟩ := h
  let data := store (fun _ => 0) 0 [7, 8]
  have h1 : System.step w ⟨{ smallRing with writePos := p, readPos := p }, grant, exposed,
      produced, consumed⟩ (.writeAcquire 2) = some ⟨{ smallRing with
      writePos := p, readPos := p, pendingWrapLen := 1 }, some ⟨0, 2, []⟩, exposed, produced,
      consumed⟩ := by
    simp [System.step, writeAcquire, smallRing, hused, hmask, hwhole, hroom, hlinear, hfits]
  have h2 : System.step w ⟨{ smallRing with writePos := p, readPos := p, pendingWrapLen := 1 },
      some ⟨0, 2, []⟩, exposed, produced, consumed⟩ (.write [7, 8]) = some ⟨{ smallRing with
      data, writePos := p, readPos := p, pendingWrapLen := 1 }, some ⟨0, 2, [7, 8]⟩, exposed,
      produced, consumed⟩ := by
    simp [System.step, smallRing, data]
  have h3 : System.step w ⟨{ smallRing with
      data, writePos := p, readPos := p, pendingWrapLen := 1 }, some ⟨0, 2, [7, 8]⟩, exposed,
      produced, consumed⟩ (.writeRelease 2) = some ⟨{ smallRing with
      data, writePos := 2, readPos := p, wrapPos := p, wrapLen := 1 }, none, exposed,
      produced ++ [(0, 7), (1, 8)], consumed⟩ := by
    simp [System.step, writeRelease, smallRing, hpad]
  have h4 : System.step w ⟨{ smallRing with
      data, writePos := 2, readPos := p, wrapPos := p, wrapLen := 1 }, none, exposed,
      produced ++ [(0, 7), (1, 8)], consumed⟩ .readAcquire = some ⟨{ smallRing with
      data, writePos := 2, readPos := 0, wrapPos := p, wrapLen := 0 }, none, some (0, 4),
      produced ++ [(0, 7), (1, 8)], consumed⟩ := by
    have hnot : ¬p < 4 := by omega
    simp [System.step, readAcquire, expose, smallRing, hjump, hhuge, hwhole, hnot,
      show 0 < p by omega, show p ≠ 0 by omega]
  have hreach := (((hs.next _ trivial h1).next _ trivial h2).next _ trivial h3).next _ trivial h4
  exact ⟨_, hreach, rfl, by simpa using heven⟩

/-- After `2 ^ 64 - 1` single bytes. -/
theorem spsc_ring_exposes_stale : ∃ s, Reaches 64 (fun _ _ => True) smallRing s ∧
    s.exposed = some (0, 4) ∧ s.produced.length = s.consumed.length + 2 ∧ ¬Fifo 64 s := by
  obtain ⟨p, hp⟩ : ∃ p, p + 1 = 2 ^ 64 := ⟨2 ^ 64 - 1, by norm_num⟩
  have hw : 4 < 2 ^ 64 := by norm_num
  obtain ⟨s, hs, hlevel⟩ := Level.reach hw p
  rw [Nat.mod_eq_of_lt (by omega)] at hlevel
  obtain ⟨s', hs', hexposed, hlength⟩ := hlevel.stale hw hs hp
  refine ⟨s', hs', hexposed, hlength, fun hfifo => ?_⟩
  have hle := (hfifo.exposed 0 4 hexposed).length_le
  simp only [stored, List.length_map, List.length_range, List.length_drop, hlength] at hle
  omega

end Concurrency.Spsc
