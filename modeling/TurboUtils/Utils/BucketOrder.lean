import TurboUtils.Lib.StableQueue
import TurboUtils.Utils.BucketQueue

/-! The bucket priority queue is a stable priority queue: no value is lost, repeated or overtaken, also
where a ring wraps or grows. -/
namespace BucketQueue

open ByteRing Segments

/-! ## Values in memory -/

section Values

variable {vs : List UInt64} {k : ℕ}

theorem length_toBytes (size n : ℕ) : (toBytes size n).length = size := by
  induction size generalizing n with
  | zero => rfl
  | succ size ih => rw [toBytes, List.length_cons, ih]

theorem ofBytes_toBytes (size n : ℕ) : ofBytes (toBytes size n) = n % 256 ^ size := by
  induction size generalizing n with
  | zero => rw [pow_zero, Nat.mod_one]; rfl
  | succ size ih =>
    have hpow : 256 ^ (size + 1) = 256 * 256 ^ size := pow_succ' 256 size
    rw [toBytes, ofBytes, ih, UInt8.toNat_ofNat', hpow, Nat.mod_mul]

theorem length_valueBytes (v : UInt64) : (valueBytes v).length = entrySize := length_toBytes _ _

theorem valueOf_valueBytes (v : UInt64) : valueOf (valueBytes v) = v := by
  have hv := v.toNat_lt
  rw [valueOf, valueBytes, ofBytes_toBytes, entrySize, Nat.mod_eq_of_lt (by omega)]
  exact UInt64.ofNat_toNat

def bytesOf (vs : List UInt64) : List UInt8 := vs.flatMap valueBytes

theorem length_bytesOf (vs : List UInt64) : (bytesOf vs).length = vs.length * entrySize := by
  induction vs with
  | nil => rfl
  | cons v vs ih =>
    have hcons : bytesOf (v :: vs) = valueBytes v ++ bytesOf vs := rfl
    rw [hcons, List.length_append, length_valueBytes, ih, List.length_cons, Nat.succ_mul, Nat.add_comm]

theorem bytesOf_append (vs ws : List UInt64) : bytesOf (vs ++ ws) = bytesOf vs ++ bytesOf ws :=
  List.flatMap_append

theorem take_bytesOf (hk : k ≤ vs.length) : (bytesOf vs).take (k * entrySize) = bytesOf (vs.take k) := by
  have hsplit := bytesOf_append (vs.take k) (vs.drop k)
  rw [List.take_append_drop] at hsplit
  rw [hsplit, List.take_left']
  rw [length_bytesOf, List.length_take_of_le hk]

theorem drop_bytesOf (hk : k ≤ vs.length) : (bytesOf vs).drop (k * entrySize) = bytesOf (vs.drop k) := by
  have hsplit := bytesOf_append (vs.take k) (vs.drop k)
  rw [List.take_append_drop] at hsplit
  rw [hsplit, List.drop_left']
  rw [length_bytesOf, List.length_take_of_le hk]

theorem valuesOf_bytesOf (vs : List UInt64) : valuesOf vs.length (bytesOf vs) = vs := by
  induction vs with
  | nil => rfl
  | cons v vs ih =>
    have hcons : bytesOf (v :: vs) = valueBytes v ++ bytesOf vs := rfl
    rw [List.length_cons, valuesOf, hcons, List.take_left' (length_valueBytes v),
      List.drop_left' (length_valueBytes v), valueOf_valueBytes, ih]

end Values

/-! ## One bucket -/

structure Aligned (ring : Ring) (capacity : ℕ) : Prop where
  size : ring.size = capacity * entrySize + 1
  r : ring.r % entrySize = 0
  w : ring.w % entrySize = 0
  i : ring.w < ring.r → ring.i % entrySize = 0

inductive Bucket.Stores : Bucket → List UInt64 → Prop
  | none {b : Bucket} (hcapacity : b.capacityEntries = 0) (hbytes : b.storageBytes = 0)
      (hcount : b.count = 0) : Stores b []
  | ring {b : Bucket} {vs : List UInt64} (hcapacity : 0 < b.capacityEntries)
      (hholds : b.ring.Holds (bytesOf vs)) (haligned : Aligned b.ring b.capacityEntries)
      (hbytes : b.storageBytes = b.ring.size) (hcount : b.count = vs.length) : Stores b vs

section Bucket

variable {b b' : Bucket} {vs : List UInt64} {ring ring' : Ring} {capacity n k offset available : ℕ}
  {held bytes : List UInt8}

theorem Bucket.Stores.count_eq (h : b.Stores vs) : b.count = vs.length := by
  cases h with
  | none _ _ hcount => exact hcount
  | ring _ _ _ _ hcount => exact hcount

theorem init_aligned (data : List UInt8) (capacity : ℕ) :
    Aligned (init data (capacity * entrySize + 1)) capacity := ⟨rfl, rfl, rfl, nofun⟩

/-- Entries are written where entries begin. -/
theorem Aligned.write (h : Aligned ring capacity) (hholds : ring.Holds held)
    (hacquire : writeAcquire ring n = (some offset, ring')) (hn : n % entrySize = 0) (hpos : 0 < n)
    (data : List UInt8) : Aligned (writeRelease { ring' with data } n) capacity := by
  have hsize := h.size
  have hw := h.w
  have hi := h.i
  have hnot := hholds.writeWrapped
  unfold entrySize at *
  obtain ⟨-, rfl, -, -⟩ | ⟨-, rfl, -⟩ := writeAcquire_cases hpos hacquire
  · unfold writeRelease
    rw [hnot]
    dsimp only
    rw [if_neg Bool.false_ne_true, if_neg Bool.false_ne_true, if_neg (by omega)]
    refine ⟨h.size, h.r, ?_, fun hlt => ?_⟩
    · show (ring'.w + n) % 8 = 0
      omega
    · have hless : ring'.w + n < ring'.r := hlt
      show (if ring'.i < ring'.w + n then ring'.w + n else ring'.i) % 8 = 0
      split_ifs <;> omega
  · unfold writeRelease
    dsimp only
    rw [if_pos rfl, if_pos rfl, if_neg (by omega)]
    refine ⟨h.size, h.r, ?_, fun _ => ?_⟩
    · show (0 + n) % 8 = 0
      omega
    · show (if ring.w < 0 + n then 0 + n else ring.w) % 8 = 0
      split_ifs <;> omega

/-- Entries are read where entries begin, and no entry is cut. -/
theorem Aligned.read (h : Aligned ring capacity) (hholds : ring.Holds held)
    (hacquire : readAcquire ring = (some offset, available, ring')) :
    available % entrySize = 0 ∧
      ∀ k ≤ available, k % entrySize = 0 → Aligned (readRelease ring' k) capacity := by
  have hsize := h.size
  have hr := h.r
  have hw := h.w
  have hi := h.i
  have hnot := hholds.readWrapped
  unfold entrySize at *
  unfold readAcquire at hacquire
  split_ifs at hacquire with hempty hone hend
  · cases hacquire
  · cases hacquire
    refine ⟨by omega, fun k hle hk => ?_⟩
    unfold readRelease
    rw [hnot]
    dsimp only
    rw [if_neg Bool.false_ne_true, if_neg (by omega)]
    refine ⟨h.size, ?_, h.w, fun hlt => ?_⟩
    · show (ring.r + k) % 8 = 0
      omega
    · have hless : ring.w < ring.r + k := hlt
      omega
  · cases hacquire
    refine ⟨hw, fun k hle hk => ?_⟩
    unfold readRelease
    dsimp only
    rw [if_pos rfl, if_neg (by omega)]
    refine ⟨h.size, ?_, h.w, fun hlt => ?_⟩
    · show (0 + k) % 8 = 0
      omega
    · have hless : ring.w < 0 + k := hlt
      omega
  · cases hacquire
    refine ⟨by omega, fun k hle hk => ?_⟩
    unfold readRelease
    rw [hnot]
    dsimp only
    rw [if_neg Bool.false_ne_true, if_neg (by omega)]
    refine ⟨h.size, ?_, h.w, fun _ => ?_⟩
    · show (ring.r + k) % 8 = 0
      omega
    · show ring.i % 8 = 0
      omega

/-! ### Growing -/

/-- The ring is copied from its front on. -/
theorem copyLoop_eq {cursor : Ring} {dst : List UInt8} {fuel copied usedBytes : ℕ}
    (h : cursor.Holds held) (hheld : copied + held.length = usedBytes)
    (hfits : usedBytes ≤ dst.length) (hfuel : held.length ≤ fuel) :
    copyLoop fuel cursor dst copied usedBytes = some (overwrite dst copied held) := by
  induction fuel generalizing cursor dst copied held with
  | zero =>
    obtain rfl := List.eq_nil_of_length_eq_zero (Nat.le_zero.1 hfuel)
    rw [copyLoop, overwrite_nil]
    exact if_pos hheld
  | succ fuel ih =>
    unfold copyLoop
    by_cases hnil : held = []
    · subst hnil
      rw [if_neg (by rw [← hheld]; exact Nat.lt_irrefl _), overwrite_nil]
    · have hpos := List.length_pos_of_ne_nil hnil
      obtain ⟨offset, available, cursor', hacquire, havailable, hdata, hsegment, hle, hrelease⟩ :=
        h.read hnil
      have htake : (if usedBytes - copied < available then usedBytes - copied else available) =
          available := if_neg (by omega)
      have hcopied : (held.take available).length = available := List.length_take_of_le hle
      have hrest : (held.drop available).length = held.length - available := List.length_drop
      rw [if_pos (by omega), hacquire]
      dsimp only
      rw [if_neg (Nat.pos_iff_ne_zero.1 havailable), htake, hdata, hsegment,
        ih (hrelease available (Nat.le_refl _)) (by omega)
          (by rw [length_overwrite (by omega)]; exact hfits) (by omega)]
      have happend := @overwrite_append UInt8 dst (held.take available) (held.drop available) copied
        (by rw [List.take_append_drop]; omega)
      rw [hcopied, List.take_append_drop] at happend
      rw [happend]

theorem copyFifoBytes_eq {dst : List UInt8} (h : b.Stores vs)
    (hfits : vs.length * entrySize ≤ dst.length) :
    copyFifoBytes b dst = some (overwrite dst 0 (bytesOf vs)) := by
  unfold copyFifoBytes
  dsimp only
  rw [h.count_eq, if_neg (Nat.not_lt_of_le hfits)]
  cases h with
  | none _ _ _ => exact congrArg some (overwrite_nil dst 0).symm
  | ring hcapacity hholds haligned hbytes hcount =>
    have hlength := length_bytesOf vs
    split_ifs with hempty
    · rw [← hlength] at hempty
      rw [List.eq_nil_of_length_eq_zero hempty, overwrite_nil]
    · exact copyLoop_eq hholds (by omega) hfits (by omega)

theorem growCapacity_le {fuel minEntries grown : ℕ}
    (h : growCapacity fuel capacity minEntries = some grown) : capacity ≤ grown ∧ minEntries ≤ grown := by
  induction fuel generalizing capacity with
  | zero =>
    rw [growCapacity] at h
    split_ifs at h with hless
    cases h
    omega
  | succ fuel ih =>
    rw [growCapacity] at h
    split_ifs at h with hless hlarge
    · have hle := ih h
      omega
    · cases h
      omega

theorem growCapacity_double (hpos : 0 < capacity) (hfits : 2 * capacity ≤ (sizeMax - 1) / entrySize) :
    growCapacity (capacity + 1) capacity (capacity + 1) = some (capacity * 2) := by
  have hsmall : ¬sizeMax / 2 < capacity := by
    unfold sizeMax entrySize at *
    omega
  rw [growCapacity, if_pos (Nat.lt_succ_self _), if_neg hsmall]
  obtain ⟨fuel, rfl⟩ := Nat.exists_eq_succ_of_ne_zero (Nat.pos_iff_ne_zero.1 hpos)
  rw [growCapacity, if_neg (by omega)]

theorem linear_ring (storage : List UInt8) {usedBytes bytes : ℕ} (hfits : usedBytes < bytes) :
    (if 0 < usedBytes then writeRelease (init storage bytes) usedBytes else init storage bytes) =
      ⟨bytes, storage, 0, usedBytes, usedBytes, false, false⟩ := by
  split_ifs with hpos
  · unfold writeRelease init
    dsimp only
    rw [if_neg Bool.false_ne_true, Nat.zero_add, if_pos hpos, if_neg (Nat.ne_of_lt hfits)]
  · obtain rfl : usedBytes = 0 := Nat.eq_zero_of_not_pos hpos
    rfl

/-- The bucket behind a call that makes it grow. -/
theorem grown_stores (hfits : vs.length ≤ capacity) (hpos : 0 < capacity) (hb' : b' =
    ⟨⟨capacity * entrySize + 1, overwrite (List.replicate (capacity * entrySize + 1) 0) 0 (bytesOf vs),
      0, vs.length * entrySize, vs.length * entrySize, false, false⟩,
      capacity * entrySize + 1, capacity, vs.length⟩) : b'.Stores vs := by
  have hlength := length_bytesOf vs
  have hmul := Nat.mul_le_mul_right entrySize hfits
  have hroom : 0 + (bytesOf vs).length ≤
      (List.replicate (capacity * entrySize + 1) (0 : UInt8)).length := by
    rw [List.length_replicate]
    omega
  subst hb'
  refine Bucket.Stores.ring hpos ⟨rfl, rfl, ?_, ?_, Ring.Regions.one (Nat.zero_le _) ?_ ?_⟩ ?_ rfl rfl
  · exact (length_overwrite hroom).trans List.length_replicate
  · show vs.length * entrySize ≤ capacity * entrySize + 1
    omega
  · show vs.length * entrySize < capacity * entrySize + 1
    omega
  · rw [← hlength]
    exact (segment_overwrite (Nat.zero_le _)).symm
  · exact ⟨rfl, rfl, Nat.mul_mod_left _ _, fun h => absurd h (Nat.not_lt_zero _)⟩

theorem reserveEntries_eq (h : b.Stores vs) (hless : b.capacityEntries < n)
    (hroom : vs.length ≤ b.capacityEntries) :
    reserveEntries b n = ((growCapacity n
      (if b.capacityEntries = 0 then minCapacity else b.capacityEntries) n).filter
        fun capacity => !capacityOverflow capacity).map fun capacity =>
          ⟨⟨capacity * entrySize + 1,
            overwrite (List.replicate (capacity * entrySize + 1) 0) 0 (bytesOf vs), 0,
            vs.length * entrySize, vs.length * entrySize, false, false⟩,
            capacity * entrySize + 1, capacity, vs.length⟩ := by
  unfold reserveEntries
  rw [if_neg (Nat.not_le_of_lt hless)]
  dsimp only
  cases hgrow : growCapacity n (if b.capacityEntries = 0 then minCapacity else b.capacityEntries) n with
  | none => rfl
  | some capacity =>
    obtain ⟨-, hle⟩ := growCapacity_le hgrow
    have hmul := Nat.mul_le_mul_right entrySize (show vs.length ≤ capacity by omega)
    dsimp only
    cases hover : capacityOverflow capacity with
    | true =>
      rw [Option.filter_some, hover]
      rfl
    | false =>
      rw [if_neg Bool.false_ne_true, Option.filter_some, hover,
        copyFifoBytes_eq h (by rw [List.length_replicate]; omega)]
      dsimp only
      rw [h.count_eq, linear_ring _ (by omega)]
      rfl

theorem Bucket.Stores.room (h : b.Stores vs) : vs.length ≤ b.capacityEntries := by
  cases h with
  | none _ _ _ => exact Nat.zero_le _
  | ring hcapacity hholds haligned hbytes hcount =>
    have hlength := length_bytesOf vs
    have hsize := haligned.size
    have hr := haligned.r
    have hw := haligned.w
    have hi := haligned.i
    have hile := hholds.i
    have hdata := hholds.length
    unfold entrySize at *
    cases hholds.regions with
    | one hle hlt hheld =>
      rw [hheld, length_segment (by omega)] at hlength
      omega
    | two hlt hri hrs hzero hheld =>
      rw [hheld, List.length_append, length_segment (by omega), length_segment (by omega)] at hlength
      omega

theorem Bucket.Stores.reserve (h : b.Stores vs) (hgrown : reserveEntries b n = some b') :
    b'.Stores vs ∧ n ≤ b'.capacityEntries := by
  rcases Nat.lt_or_ge b.capacityEntries n with hless | henough
  · rw [reserveEntries_eq h hless h.room, Option.map_eq_some_iff] at hgrown
    obtain ⟨capacity, hcapacity, hb'⟩ := hgrown
    obtain ⟨hgrow, -⟩ := Option.filter_eq_some_iff.1 hcapacity
    obtain ⟨-, hle⟩ := growCapacity_le hgrow
    have hroom := h.room
    refine ⟨grown_stores (by omega) (by omega) hb'.symm, ?_⟩
    rw [← hb']
    exact hle
  · rw [reserveEntries, if_pos henough] at hgrown
    cases hgrown
    exact ⟨h, henough⟩

/-- Whether twice the entries of a bucket may be addressed. -/
def Fits (b : Bucket) : Prop := 2 * b.capacityEntries ≤ (sizeMax - 1) / entrySize

/-- One more entry than there are is always reserved, where twice as many may be addressed. -/
theorem Bucket.Stores.reserve_succ (h : b.Stores vs) (hfits : Fits b) : ∃ capacity,
    b.capacityEntries < capacity ∧ reserveEntries b (b.capacityEntries + 1) = some
      ⟨⟨capacity * entrySize + 1,
        overwrite (List.replicate (capacity * entrySize + 1) 0) 0 (bytesOf vs), 0,
        vs.length * entrySize, vs.length * entrySize, false, false⟩,
        capacity * entrySize + 1, capacity, vs.length⟩ := by
  rw [reserveEntries_eq h (Nat.lt_succ_self _) h.room]
  unfold Fits at hfits
  by_cases hzero : b.capacityEntries = 0
  · have hgrow : growCapacity (b.capacityEntries + 1)
        (if b.capacityEntries = 0 then minCapacity else b.capacityEntries) (b.capacityEntries + 1) =
          some 16 := by
      rw [if_pos hzero, hzero]
      rfl
    refine ⟨16, by omega, ?_⟩
    rw [hgrow]
    rfl
  · have hgrow := @growCapacity_double b.capacityEntries (Nat.pos_iff_ne_zero.2 hzero) hfits
    have hsmall : capacityOverflow (b.capacityEntries * 2) = false := by
      unfold capacityOverflow
      rw [decide_eq_false (show ¬(sizeMax - 1) / entrySize < b.capacityEntries * 2 by omega),
        Bool.and_false]
    refine ⟨b.capacityEntries * 2, by omega, ?_⟩
    rw [if_neg hzero, hgrow, Option.filter_some, hsmall]
    rfl

/-! ### One value in, one value out -/

theorem acquire_linear (storage : List UInt8) {len : ℕ} (h : len < capacity) :
    writeAcquire ⟨capacity * entrySize + 1, storage, 0, len * entrySize, len * entrySize, false, false⟩
      entrySize = (some (len * entrySize),
        ⟨capacity * entrySize + 1, storage, 0, len * entrySize, len * entrySize, false, false⟩) := by
  unfold writeAcquire calcFree entrySize
  dsimp only
  rw [if_neg (Nat.not_lt_zero _)]
  exact if_pos (by split_ifs <;> omega)

theorem Bucket.Stores.writeEntry (h : b.Stores vs) (hpos : 0 < b.capacityEntries)
    (hacquire : writeAcquire b.ring entrySize = (some offset, ring')) (v : UInt64) :
    (BucketQueue.writeEntry { b with ring := ring' } offset v).Stores (vs ++ [v]) := by
  cases h with
  | none hcapacity _ _ => exact absurd hcapacity (Nat.pos_iff_ne_zero.1 hpos)
  | ring _ hholds haligned hbytes hcount =>
    have hlength := length_valueBytes v
    have hone : bytesOf [v] = valueBytes v := List.append_nil _
    rw [← hlength] at hacquire
    have hwritten := hholds.write (by rw [hlength]; decide) hacquire
    have hstill := haligned.write hholds hacquire (by rw [hlength]; rfl) (by rw [hlength]; decide)
      (overwrite ring'.data offset (valueBytes v))
    rw [hlength] at hwritten hstill
    refine Bucket.Stores.ring hpos ?_ hstill ?_ ?_
    · rw [bytesOf_append, hone]
      exact hwritten
    · exact hbytes.trans (haligned.size.trans hstill.size.symm)
    · rw [List.length_append, ← hcount]
      rfl

/-- Whether a push makes the bucket grow: it is full, or its free bytes are in two pieces. -/
def Grows (b : Bucket) : Prop :=
  b.capacityEntries < b.count + 1 ∨ (writeAcquire b.ring entrySize).1 = none

/-- The bucket that a growing push writes into. -/
theorem Bucket.Stores.grown (h : b.Stores vs) (hfits : Fits b) : ∃ grown : Bucket,
    reserveEntries b (b.capacityEntries + 1) = some grown ∧
      writeAcquire grown.ring entrySize = (some (vs.length * entrySize), grown.ring) ∧
      ∀ v, (BucketQueue.writeEntry grown (vs.length * entrySize) v).Stores (vs ++ [v]) := by
  have hroom := h.room
  obtain ⟨capacity, hless, hgrow⟩ := h.reserve_succ hfits
  obtain ⟨grown, hgrown⟩ : ∃ grown : Bucket, grown = ⟨⟨capacity * entrySize + 1,
    overwrite (List.replicate (capacity * entrySize + 1) 0) 0 (bytesOf vs), 0, vs.length * entrySize,
    vs.length * entrySize, false, false⟩, capacity * entrySize + 1, capacity, vs.length⟩ := ⟨_, rfl⟩
  have hstores : grown.Stores vs := grown_stores (by omega) (by omega) hgrown
  have hpos : 0 < grown.capacityEntries := by
    rw [hgrown]
    exact Nat.zero_lt_of_lt hless
  have hlinear : writeAcquire grown.ring entrySize = (some (vs.length * entrySize), grown.ring) := by
    rw [hgrown]
    exact acquire_linear _ (by omega)
  exact ⟨grown, hgrown ▸ hgrow, hlinear, hstores.writeEntry hpos hlinear⟩

/-- A value is always pushed, where twice as many entries may be addressed if the bucket grows. -/
theorem Bucket.Stores.push (h : b.Stores vs) (hfits : Grows b → Fits b) (v : UInt64) :
    ∃ b₁ offset b₂, reserveEntries b (b.count + 1) = some b₁ ∧
      acquireEntry b₁ = (some offset, b₂) ∧ (BucketQueue.writeEntry b₂ offset v).Stores (vs ++ [v]) := by
  have hroom := h.room
  rcases Nat.lt_or_ge b.capacityEntries (b.count + 1) with hfull | henough
  · obtain ⟨grown, hgrow, hlinear, hwritten⟩ := h.grown (hfits (Or.inl hfull))
    have hcount : b.count + 1 = b.capacityEntries + 1 := by
      rw [h.count_eq] at hfull ⊢
      omega
    refine ⟨grown, vs.length * entrySize, grown, by rw [hcount, hgrow], ?_, hwritten v⟩
    rw [acquireEntry, hlinear]
  · refine ⟨b, ?_⟩
    rcases hacquire : writeAcquire b.ring entrySize with ⟨_ | offset, ring'⟩
    · -- The region is there, but not in one piece.
      obtain ⟨grown, hgrow, hlinear, hwritten⟩ := h.grown (hfits (Or.inr (by rw [hacquire])))
      obtain rfl := writeAcquire_none hacquire
      refine ⟨vs.length * entrySize, grown, by rw [reserveEntries, if_pos henough], ?_, hwritten v⟩
      rw [acquireEntry, hacquire]
      dsimp only
      rw [hgrow]
      dsimp only
      rw [hlinear]
    · refine ⟨offset, { b with ring := ring' }, by rw [reserveEntries, if_pos henough], ?_,
        h.writeEntry (by omega) hacquire v⟩
      rw [acquireEntry, hacquire]

/-- The region in which the oldest values stand. -/
theorem Bucket.Stores.front (h : b.Stores vs) (hvs : vs ≠ []) :
    ∃ offset entries ring', readAcquire b.ring = (some offset, entries * entrySize, ring') ∧
      0 < entries ∧ entries ≤ vs.length ∧
      ∀ k ≤ entries, segment ring'.data offset (k * entrySize) = bytesOf (vs.take k) ∧
        Bucket.Stores { b with ring := readRelease ring' (k * entrySize), count := b.count - k }
          (vs.drop k) := by
  cases h with
  | none _ _ _ => exact absurd rfl hvs
  | ring hpos hholds haligned hbytes hcount =>
    have hlength := length_bytesOf vs
    have hne : bytesOf vs ≠ [] := by
      intro hnil
      rw [hnil, List.length_nil] at hlength
      have hsome := List.length_pos_of_ne_nil hvs
      unfold entrySize at hlength
      omega
    obtain ⟨offset, available, ring', hacquire, havailable, hdata, hsegment, hle, hrelease⟩ :=
      hholds.read hne
    obtain ⟨hentries, hstill⟩ := haligned.read hholds hacquire
    have hentry : available / entrySize * entrySize = available :=
      Nat.div_mul_cancel (Nat.dvd_of_mod_eq_zero hentries)
    obtain ⟨entries, rfl⟩ : ∃ entries, available = entries * entrySize := ⟨_, hentry.symm⟩
    have hcounts : 0 < entries ∧ entries ≤ vs.length := by
      unfold entrySize at *
      omega
    refine ⟨offset, entries, ring', hacquire, hcounts.1, hcounts.2, fun k hk => ?_⟩
    have hmul := Nat.mul_le_mul_right entrySize hk
    have hk' : k ≤ vs.length := hk.trans hcounts.2
    constructor
    · rw [← take_bytesOf hk', hdata, ← min_eq_left hmul, ← List.take_take, ← hsegment,
        Segments.segment, Segments.segment, List.take_take, min_eq_left hmul]
    · have hless := hstill (k * entrySize) hmul (Nat.mul_mod_left _ _)
      refine Bucket.Stores.ring hpos ?_ hless ?_ ?_
      · rw [← drop_bytesOf hk']
        exact hrelease _ hmul
      · exact hbytes.trans (haligned.size.trans hless.size.symm)
      · rw [List.length_drop, ← hcount]

theorem Bucket.Stores.popOne {v : UInt64} (h : b.Stores (v :: vs)) :
    ∃ b', BucketQueue.popOne b = (some v, b') ∧ b'.Stores vs := by
  obtain ⟨offset, entries, ring', hacquire, hpos, -, hfront⟩ := h.front (List.cons_ne_nil v vs)
  obtain ⟨hsegment, hstores⟩ := hfront 1 hpos
  refine ⟨_, ?_, hstores⟩
  have hone : bytesOf [v] = valueBytes v := List.append_nil _
  have hmul := Nat.mul_le_mul_right entrySize hpos
  rw [Nat.one_mul] at hsegment hmul ⊢
  rw [BucketQueue.popOne, h.count_eq, if_neg (show ¬(v :: vs).length = 0 from Nat.succ_ne_zero _),
    hacquire]
  dsimp only
  rw [if_neg (Nat.not_lt_of_le hmul), hsegment]
  show (some (valueOf (bytesOf [v])), _) = _
  rw [hone, valueOf_valueBytes]

theorem Bucket.Stores.peekOne {v : UInt64} (h : b.Stores (v :: vs)) :
    BucketQueue.peekOne b = some v := by
  obtain ⟨offset, entries, ring', hacquire, hpos, -, hfront⟩ := h.front (List.cons_ne_nil v vs)
  obtain ⟨hsegment, -⟩ := hfront 1 hpos
  have hone : bytesOf [v] = valueBytes v := List.append_nil _
  have hmul := Nat.mul_le_mul_right entrySize hpos
  rw [Nat.one_mul] at hsegment hmul
  rw [BucketQueue.peekOne, h.count_eq, if_neg (show ¬(v :: vs).length = 0 from Nat.succ_ne_zero _),
    hacquire]
  dsimp only
  rw [if_neg (Nat.not_lt_of_le hmul), hsegment]
  show some (valueOf (bytesOf [v])) = _
  rw [hone, valueOf_valueBytes]

/-- The inner loop of a batch takes the oldest values of the bucket. -/
theorem Bucket.Stores.batchBucket {fuel left : ℕ} (h : b.Stores vs) (hfuel : left ≤ fuel) :
    ∃ b', BucketQueue.batchBucket fuel left b = (vs.take left, b', true) ∧
      b'.Stores (vs.drop left) := by
  induction fuel generalizing b vs left with
  | zero =>
    obtain rfl := Nat.le_zero.1 hfuel
    exact ⟨b, by rw [BucketQueue.batchBucket, List.take_zero], h⟩
  | succ fuel ih =>
    unfold BucketQueue.batchBucket
    by_cases hmore : 0 < b.count ∧ 0 < left
    · have hvs : vs ≠ [] := by
        rintro rfl
        rw [h.count_eq] at hmore
        exact absurd hmore.1 (Nat.lt_irrefl 0)
      obtain ⟨offset, entries, ring', hacquire, hpos, hle, hfront⟩ := h.front hvs
      have hmul := Nat.mul_le_mul_right entrySize hpos
      rw [Nat.one_mul] at hmul
      have hcount := h.count_eq
      rw [if_pos hmore, hacquire]
      dsimp only
      rw [if_neg (Nat.not_lt_of_le hmul), Nat.mul_div_cancel entries (by decide : 0 < entrySize)]
      obtain ⟨take, htake⟩ : ∃ take, take = if left < entries then left else entries := ⟨_, rfl⟩
      have htakes : 0 < take ∧ take ≤ entries ∧ take ≤ left := by
        rw [htake]
        split_ifs <;> omega
      rw [← htake, if_neg (show ¬b.count < take by omega), if_neg (show ¬take = 0 by omega)]
      obtain ⟨hsegment, hstores⟩ := hfront take htakes.2.1
      obtain ⟨b', hrest, hb'⟩ := ih hstores (show left - take ≤ fuel by omega)
      have hlength : (vs.take take).length = take := List.length_take_of_le (by omega)
      have hvalues := valuesOf_bytesOf (vs.take take)
      rw [hlength] at hvalues
      have hsplit : vs.take left = vs.take take ++ (vs.drop take).take (left - take) := by
        rw [← List.take_add, Nat.add_sub_cancel' htakes.2.2]
      refine ⟨b', ?_, ?_⟩
      · rw [hrest, hsegment, hvalues, hsplit]
      · rw [List.drop_drop] at hb'
        rwa [Nat.add_sub_cancel' htakes.2.2] at hb'
    · rw [if_neg hmore]
      rcases Nat.eq_zero_or_pos left with rfl | hleft
      · exact ⟨b, by rw [List.take_zero], h⟩
      · have hzero : vs.length = 0 := by
          rw [← h.count_eq]
          exact Nat.eq_zero_of_not_pos fun hpos => hmore ⟨hpos, hleft⟩
        obtain rfl := List.eq_nil_of_length_eq_zero hzero
        exact ⟨b, by rw [List.take_nil], by rwa [List.drop_nil]⟩

end Bucket

/-! ## The mask -/

/-- The bits of a mask are those of the levels that have values. -/
def Masked (mask : UInt8) (q : ℕ → List UInt64) : Prop :=
  ∀ p, mask.toNat.testBit p = true ↔ p < priorityCount ∧ q p ≠ []

section Mask

variable {mask : UInt8} {q q' : ℕ → List UInt64} {p p' : ℕ}

theorem testBit_of_ge (mask : UInt8) (h : 8 ≤ p') : mask.toNat.testBit p' = false := by
  refine Nat.testBit_lt_two_pow (mask.toNat_lt.trans_le ?_)
  exact Nat.pow_le_pow_right (by decide) h

theorem testBit_bit (hp : p < priorityCount) (hp' : p' < 8) :
    (priorityBit p).toNat.testBit p' = decide (p' = p) ∧
      (~~~priorityBit p).toNat.testBit p' = decide (p' ≠ p) := by
  have h : ∀ (p : Fin 4) (p' : Fin 8), (priorityBit p).toNat.testBit p' = decide ((p' : ℕ) = p) ∧
      (~~~priorityBit p).toNat.testBit p' = decide ((p' : ℕ) ≠ p) := by decide
  exact h ⟨p, hp⟩ ⟨p', hp'⟩

theorem testBit_set (hp : p < priorityCount) : (mask ||| priorityBit p).toNat.testBit p' = true ↔
    mask.toNat.testBit p' = true ∨ p' = p := by
  rcases Nat.lt_or_ge p' 8 with hlt | hge
  · rw [UInt8.toNat_or, Nat.testBit_or, (testBit_bit hp hlt).1, Bool.or_eq_true, decide_eq_true_eq]
  · have hne : p' ≠ p := by
      unfold priorityCount at hp
      omega
    rw [testBit_of_ge _ hge, testBit_of_ge _ hge, or_iff_left hne]

theorem testBit_clear (hp : p < priorityCount) :
    (mask &&& ~~~priorityBit p).toNat.testBit p' = true ↔ mask.toNat.testBit p' = true ∧ p' ≠ p := by
  rcases Nat.lt_or_ge p' 8 with hlt | hge
  · rw [UInt8.toNat_and, Nat.testBit_and, (testBit_bit hp hlt).2, Bool.and_eq_true, decide_eq_true_eq]
  · rw [testBit_of_ge _ hge, testBit_of_ge _ hge]
    exact (and_iff_left_of_imp (by simp)).symm

theorem Masked.eq_zero_iff (h : Masked mask q) : mask = 0 ↔ ∀ p < priorityCount, q p = [] := by
  constructor
  · rintro rfl p hp
    by_contra hne
    have hbit := (h p).2 ⟨hp, hne⟩
    rw [UInt8.toNat_zero, Nat.zero_testBit] at hbit
    cases hbit
  · intro hall
    apply UInt8.toNat_inj.1
    apply Nat.eq_of_testBit_eq
    intro p
    rw [UInt8.toNat_zero, Nat.zero_testBit, ← Bool.not_eq_true, h p]
    rintro ⟨hp, hne⟩
    exact hne (hall p hp)

theorem Masked.highest (h : Masked mask q) (hmask : mask ≠ 0) :
    StableQueue.highest q priorityCount = some (highestNonEmptyPriority mask) := by
  have hne : mask.toNat ≠ 0 := fun hzero => hmask (UInt8.toNat_inj.1 hzero)
  have hbit : mask.toNat.testBit (highestNonEmptyPriority mask) = true := Nat.testBit_log2 hne
  obtain ⟨hlt, hsome⟩ := (h _).1 hbit
  refine StableQueue.highest_eq_some.2 ⟨hlt, hsome, fun p hp hless => ?_⟩
  by_contra hmore
  have hhigher := Nat.ge_two_pow_of_testBit ((h p).2 ⟨hp, hmore⟩)
  have hlog := (Nat.le_log2 hne).2 hhigher
  exact absurd hless (Nat.not_lt_of_le hlog)

theorem Masked.update {vs : List UInt64} {mask' : UInt8} (h : Masked mask q) (hp : p < priorityCount)
    (hmask : ∀ p', mask'.toNat.testBit p' = true ↔
      if p' = p then vs ≠ [] else mask.toNat.testBit p' = true) :
    Masked mask' (Function.update q p vs) := by
  intro p'
  rw [hmask]
  by_cases hsame : p' = p
  · subst hsame
    rw [if_pos rfl, Function.update_self]
    exact (and_iff_right hp).symm
  · rw [if_neg hsame, Function.update_of_ne hsame]
    exact h p'

theorem clear_lt (hp : p < priorityCount) (hbit : mask.toNat.testBit p = true) :
    (mask &&& ~~~priorityBit p).toNat < mask.toNat := by
  refine Nat.lt_of_le_of_ne ?_ fun hsame => ?_
  · rw [UInt8.toNat_and]
    exact Nat.and_le_left
  · have hcleared := (@testBit_clear mask p p hp).1 (by rw [hsame]; exact hbit)
    exact hcleared.2 rfl

end Mask

/-! ## The queue -/

def total (q : ℕ → List UInt64) : ℕ := ((List.range priorityCount).map fun p => (q p).length).sum

structure Queue.Stores (queue : Queue) (q : ℕ → List UInt64) : Prop where
  bucket : ∀ p < priorityCount, (queue.buckets p).Stores (q p)
  totalSize : queue.totalSize = total q
  mask : Masked queue.nonEmptyMask q

section Calls

variable {queue queue' : Queue} {q : ℕ → List UInt64} {p : ℕ} {bucket : Bucket} {vs : List UInt64}
  {v : UInt64}

theorem total_update (hp : p < priorityCount) :
    total (Function.update q p vs) + (q p).length = total q + vs.length := by
  have htotal : ∀ q : ℕ → List UInt64, total q =
      (q 0).length + ((q 1).length + ((q 2).length + ((q 3).length + 0))) := fun _ => rfl
  rw [htotal, htotal]
  unfold priorityCount at hp
  interval_cases p <;> simp <;> omega

theorem total_eq_zero (h : ∀ p < priorityCount, q p = []) : total q = 0 := by
  have htotal : total q =
      (q 0).length + ((q 1).length + ((q 2).length + ((q 3).length + 0))) := rfl
  rw [htotal, h 0 (by decide), h 1 (by decide), h 2 (by decide), h 3 (by decide)]
  rfl

/-- A queue with one bucket changed. -/
theorem Queue.Stores.update {size : ℕ} {mask : UInt8} (h : queue.Stores q) (hp : p < priorityCount)
    (hbucket : bucket.Stores vs) (hsize : size + (q p).length = queue.totalSize + vs.length)
    (hmask : ∀ p', mask.toNat.testBit p' = true ↔
      if p' = p then vs ≠ [] else queue.nonEmptyMask.toNat.testBit p' = true) :
    Queue.Stores ⟨Function.update queue.buckets p bucket, size, mask⟩ (Function.update q p vs) := by
  refine ⟨fun p' hp' => ?_, ?_, h.mask.update hp hmask⟩
  · show (Function.update queue.buckets p bucket p').Stores (Function.update q p vs p')
    by_cases hsame : p' = p
    · subst hsame
      rwa [Function.update_self, Function.update_self]
    · rw [Function.update_of_ne hsame, Function.update_of_ne hsame]
      exact h.bucket p' hp'
  · have htotal := @total_update q p vs hp
    have hall := h.totalSize
    show size = _
    omega

theorem Queue.Stores.length_le (h : queue.Stores q) (hp : p < priorityCount) :
    (q p).length ≤ queue.totalSize := by
  have hzero := @total_update q p [] hp
  rw [List.length_nil] at hzero
  rw [h.totalSize]
  omega

/-- A push of a valid priority succeeds. -/
theorem Queue.Stores.push (h : queue.Stores q) (hp : p < priorityCount)
    (hfits : Grows (queue.buckets p) → Fits (queue.buckets p)) (v : UInt64) : ∃ queue',
      BucketQueue.push queue p v = (true, queue') ∧
        queue'.Stores (Function.update q p (q p ++ [v])) := by
  have hbucket := h.bucket p hp
  obtain ⟨b₁, offset, b₂, hreserve, hacquire, hstores⟩ := hbucket.push hfits v
  have hvalid : priorityValid p = true := decide_eq_true hp
  have hpush : BucketQueue.push queue p v =
      (true, ⟨Function.update queue.buckets p (writeEntry b₂ offset v), queue.totalSize + 1,
        if (queue.buckets p).count = 0 then queue.nonEmptyMask ||| priorityBit p
        else queue.nonEmptyMask⟩) := by
    rw [BucketQueue.push, hvalid, if_neg (by decide)]
    dsimp only
    rw [hreserve]
    dsimp only
    rw [hacquire]
  refine ⟨_, hpush, h.update hp hstores ?_ (fun p' => ?_)⟩
  · rw [List.length_append]
    exact Nat.add_right_comm queue.totalSize 1 _
  · have hne : q p ++ [v] ≠ [] := List.append_ne_nil_of_right_ne_nil _ (List.cons_ne_nil v [])
    by_cases hsame : p' = p
    · subst hsame
      rw [if_pos rfl]
      refine iff_of_true ?_ hne
      split_ifs with hempty
      · exact (testBit_set hp).2 (Or.inr rfl)
      · refine (h.mask p').2 ⟨hp, fun hnil => hempty ?_⟩
        rw [hbucket.count_eq, hnil]
        rfl
    · rw [if_neg hsame]
      split_ifs
      · exact (testBit_set hp).trans (or_iff_left hsame)
      · exact Iff.rfl

/-- A mask that is cleared where a bucket was emptied. -/
theorem masked_of_popped {mask : UInt8} (hp : p < priorityCount) (hbit : mask.toNat.testBit p = true)
    (hcount : bucket.count = vs.length) (p' : ℕ) :
    (if bucket.count = 0 then mask &&& ~~~priorityBit p else mask).toNat.testBit p' = true ↔
      if p' = p then vs ≠ [] else mask.toNat.testBit p' = true := by
  have hzero : bucket.count = 0 ↔ vs = [] := by rw [hcount, List.length_eq_zero_iff]
  by_cases hsame : p' = p
  · subst hsame
    rw [if_pos rfl]
    split_ifs with hempty
    · exact iff_of_false (fun hstill => ((testBit_clear hp).1 hstill).2 rfl)
        (not_not.2 (hzero.1 hempty))
    · exact iff_of_true hbit fun hnil => hempty (hzero.2 hnil)
  · rw [if_neg hsame]
    split_ifs
    · exact (testBit_clear hp).trans (and_iff_left hsame)
    · exact Iff.rfl

theorem Queue.Stores.highest (h : queue.Stores q) (hmask : queue.nonEmptyMask ≠ 0) : ∃ p v rest,
    highestNonEmptyPriority queue.nonEmptyMask = p ∧ p < priorityCount ∧
      StableQueue.highest q priorityCount = some p ∧ q p = v :: rest ∧
        queue.nonEmptyMask.toNat.testBit p = true ∧ (queue.buckets p).Stores (v :: rest) ∧
          (queue.buckets p).count ≠ 0 := by
  have hhighest := h.mask.highest hmask
  obtain ⟨hp, hne, -⟩ := StableQueue.highest_eq_some.1 hhighest
  obtain ⟨v, rest, hq⟩ := List.exists_cons_of_ne_nil hne
  have hbucket := h.bucket _ hp
  rw [hq] at hbucket
  refine ⟨_, v, rest, rfl, hp, hhighest, hq, (h.mask _).2 ⟨hp, hne⟩, hbucket, ?_⟩
  rw [hbucket.count_eq]
  exact Nat.succ_ne_zero _

/-- A pop returns the oldest value of the highest level, if there is any. -/
theorem Queue.Stores.pop (h : queue.Stores q) : ∃ queue',
    BucketQueue.pop queue = ((StableQueue.pop priorityCount q).map Prod.fst, queue') ∧
      queue'.Stores (((StableQueue.pop priorityCount q).map Prod.snd).getD q) := by
  unfold BucketQueue.pop
  by_cases hmask : queue.nonEmptyMask = 0
  · have hnone := StableQueue.pop_eq_none.2 (h.mask.eq_zero_iff.1 hmask)
    refine ⟨queue, ?_, ?_⟩
    · rw [hnone, hmask]
      rfl
    · rw [hnone]
      exact h
  · obtain ⟨p, v, rest, hp, hlt, hhighest, hq, hbit, hbucket, hcount⟩ := h.highest hmask
    obtain ⟨bucket, hpopped, hstores⟩ := hbucket.popOne
    obtain ⟨fuel, hfuel⟩ := Nat.exists_eq_succ_of_ne_zero
      fun hzero => hmask (UInt8.toNat_inj.1 hzero)
    have hall := @total_update q p rest hlt
    have hpop : popLoop (fuel + 1) queue = (some v, ⟨Function.update queue.buckets p bucket,
        queue.totalSize - 1,
        if bucket.count = 0 then queue.nonEmptyMask &&& ~~~priorityBit p
        else queue.nonEmptyMask⟩) := by
      rw [popLoop, if_neg hmask]
      dsimp only
      rw [hp, if_neg hcount, hpopped]
    rw [StableQueue.pop_of_highest hhighest hq, hfuel, hpop]
    refine ⟨_, rfl, h.update hlt hstores ?_ (masked_of_popped hlt hbit hstores.count_eq)⟩
    have hle := h.length_le hlt
    rw [hq, List.length_cons] at hle ⊢
    omega

theorem Queue.Stores.peek (h : queue.Stores q) :
    BucketQueue.peek queue = (StableQueue.pop priorityCount q).map Prod.fst := by
  unfold BucketQueue.peek
  by_cases hmask : queue.nonEmptyMask = 0
  · rw [StableQueue.pop_eq_none.2 (h.mask.eq_zero_iff.1 hmask), hmask]
    rfl
  · obtain ⟨p, v, rest, hp, hlt, hhighest, hq, hbit, hbucket, hcount⟩ := h.highest hmask
    obtain ⟨fuel, hfuel⟩ := Nat.exists_eq_succ_of_ne_zero
      fun hzero => hmask (UInt8.toNat_inj.1 hzero)
    rw [StableQueue.pop_of_highest hhighest hq, hfuel, peekLoop, if_neg hmask]
    dsimp only
    rw [hp, if_neg hcount, hbucket.peekOne]
    rfl

/-- A batch is as many pops. -/
theorem Queue.Stores.batchLoop {fuel left : ℕ} (h : queue.Stores q)
    (hfuel : queue.nonEmptyMask.toNat ≤ fuel) : ∃ queue',
      BucketQueue.batchLoop fuel left queue = ((StableQueue.pops priorityCount left q).1, queue') ∧
        queue'.Stores (StableQueue.pops priorityCount left q).2 := by
  have hdone : ∀ (fuel : ℕ) (queue : Queue), BucketQueue.batchLoop fuel 0 queue = ([], queue) := by
    intro fuel queue
    cases fuel with
    | zero => rfl
    | succ fuel => exact if_neg fun hmore => absurd hmore.2 (Nat.lt_irrefl 0)
  induction fuel generalizing queue q left with
  | zero =>
    have hmask : queue.nonEmptyMask = 0 := UInt8.toNat_inj.1 (Nat.le_zero.1 hfuel)
    rw [StableQueue.pops_of_empty (h.mask.eq_zero_iff.1 hmask)]
    exact ⟨queue, rfl, h⟩
  | succ fuel ih =>
    by_cases hmask : queue.nonEmptyMask = 0
    · rw [StableQueue.pops_of_empty (h.mask.eq_zero_iff.1 hmask)]
      exact ⟨queue, if_neg fun hmore => hmore.1 hmask, h⟩
    · rcases Nat.eq_zero_or_pos left with rfl | hleft
      · exact ⟨queue, hdone _ _, h⟩
      · obtain ⟨p, v, rest, hp, hlt, hhighest, hq, hbit, hbucket, hcount⟩ := h.highest hmask
        rw [← hq] at hbucket
        obtain ⟨bucket, hbatch, hstores⟩ := hbucket.batchBucket (Nat.le_refl left)
        have hlength : ((q p).take left).length = min left (q p).length := List.length_take
        obtain ⟨popped, hpopped⟩ : ∃ popped : Queue, popped =
            ⟨Function.update queue.buckets p bucket, queue.totalSize - ((q p).take left).length,
              if bucket.count = 0 then queue.nonEmptyMask &&& ~~~priorityBit p
              else queue.nonEmptyMask⟩ := ⟨_, rfl⟩
        have hkeeps : popped.Stores (Function.update q p ((q p).drop left)) := by
          rw [hpopped]
          refine h.update hlt hstores ?_ (masked_of_popped hlt hbit hstores.count_eq)
          have hle := h.length_le hlt
          rw [List.length_drop, hlength]
          omega
        have hloop : BucketQueue.batchLoop (fuel + 1) left queue =
            ((q p).take left ++ (BucketQueue.batchLoop fuel (left - ((q p).take left).length) popped).1,
              (BucketQueue.batchLoop fuel (left - ((q p).take left).length) popped).2) := by
          rw [BucketQueue.batchLoop, if_pos ⟨hmask, hleft⟩, hpopped]
          dsimp only
          rw [hp, if_neg hcount, hbatch]
          simp only [Bool.not_true, Bool.false_eq_true, if_false, true_and]
        obtain ⟨k, hk⟩ : ∃ k, k = min left (q p).length := ⟨_, rfl⟩
        have htake : (q p).take left = (q p).take k := by rw [hk, List.take_eq_take_min]
        have hdrop : (q p).drop left = (q p).drop k := by
          rw [hk, List.drop_eq_drop_min]
        have hfirst := StableQueue.pops_of_highest hhighest (show k ≤ (q p).length by omega)
        have hadd := StableQueue.pops_add priorityCount k (left - k) q
        rw [Nat.add_sub_cancel' (by omega), hfirst] at hadd
        rw [hdrop] at hkeeps
        rw [hlength, ← hk, htake] at hloop
        rw [hloop, hadd]
        dsimp only
        by_cases hempty : bucket.count = 0
        · -- The bucket is empty, and its bit is not in the mask any more.
          have hmask' : popped.nonEmptyMask.toNat ≤ fuel := by
            have hless := clear_lt hlt hbit
            rw [hpopped]
            dsimp only
            rw [if_pos hempty]
            omega
          obtain ⟨queue', hqueue', hall⟩ := @ih popped _ (left - k) hkeeps hmask'
          rw [hqueue']
          exact ⟨queue', rfl, hall⟩
        · have hnone : left - k = 0 := by
            rw [hstores.count_eq, List.length_drop] at hempty
            omega
          rw [hnone, hdone]
          exact ⟨popped, rfl, hkeeps⟩

theorem Queue.Stores.popBatch (h : queue.Stores q) (maxItems : ℕ) : ∃ queue',
    BucketQueue.popBatch queue maxItems = ((StableQueue.pops priorityCount maxItems q).1, queue') ∧
      queue'.Stores (StableQueue.pops priorityCount maxItems q).2 :=
  h.batchLoop (Nat.le_refl _)

/-- Reserving entries changes no values. -/
theorem Queue.Stores.reserveFrom {capacity left : ℕ} (h : queue.Stores q) :
    (BucketQueue.reserveFrom capacity left p queue).2.Stores q := by
  induction left generalizing p queue with
  | zero => exact h
  | succ left ih =>
    unfold BucketQueue.reserveFrom
    cases hgrown : reserveEntries (queue.buckets p) capacity with
    | none => exact h
    | some bucket =>
      refine ih ⟨fun p' hp' => ?_, h.totalSize, h.mask⟩
      dsimp only
      by_cases hsame : p' = p
      · subst hsame
        rw [Function.update_self]
        exact ((h.bucket p' hp').reserve hgrown).1
      · rw [Function.update_of_ne hsame]
        exact h.bucket p' hp'

theorem masked_zero {q : ℕ → List UInt64} (h : ∀ p, q p = []) : Masked 0 q := by
  intro p
  rw [UInt8.toNat_zero, Nat.zero_testBit]
  exact iff_of_false Bool.false_ne_true fun hboth => hboth.2 (h p)

theorem initQueue_stores {capacity : ℕ} (h : initQueue capacity = some queue) :
    queue.Stores fun _ => [] := by
  have hzero : Queue.Stores ⟨fun _ => zeroBucket, 0, 0⟩ fun _ => [] :=
    ⟨fun _ _ => Bucket.Stores.none rfl rfl rfl, (total_eq_zero fun _ _ => rfl).symm,
      masked_zero fun _ => rfl⟩
  unfold initQueue at h
  dsimp only at h
  split_ifs at h with hcapacity
  · cases h
    exact hzero
  · have hreserve : (reserve ⟨fun _ => zeroBucket, 0, 0⟩ capacity).2.Stores fun _ => [] :=
      hzero.reserveFrom
    rcases hres : reserve ⟨fun _ => zeroBucket, 0, 0⟩ capacity with ⟨_ | _, reserved⟩
    · rw [hres] at h
      cases h
    · rw [hres] at h hreserve
      cases h
      exact hreserve

theorem Bucket.Stores.clear (h : bucket.Stores vs) : (clearBucket bucket).Stores [] := by
  cases h with
  | none hcapacity hbytes _ => exact Bucket.Stores.none hcapacity hbytes rfl
  | ring hpos hholds haligned hbytes _ =>
    have hsize := haligned.size
    have hlength := hholds.length
    have hsome : 0 < bucket.storageBytes := by omega
    have hring : (clearBucket bucket).ring = init bucket.ring.data bucket.ring.data.length := by
      unfold clearBucket
      dsimp only
      rw [if_pos hsome, hbytes, hlength]
    have hne : bucket.ring.data ≠ [] := by
      intro hnil
      rw [hnil, List.length_nil] at hlength
      omega
    refine Bucket.Stores.ring hpos ?_ ?_ ?_ rfl
    · rw [hring]
      exact init_holds hne
    · rw [hring, hlength, hsize]
      exact init_aligned _ _
    · rw [hring]
      exact hbytes.trans hlength.symm

theorem Queue.Stores.clear (h : queue.Stores q) : (BucketQueue.clear queue).Stores fun _ => [] :=
  ⟨fun p hp => (h.bucket p hp).clear, (total_eq_zero fun _ _ => rfl).symm, masked_zero fun _ => rfl⟩

end Calls

/-! ## Runs -/

/-- One call, and what it answers. -/
def step (queue : Queue) : StableQueue.Operation UInt64 → StableQueue.Outcome UInt64 × Queue
  | .push p v => (.pushed (push queue p v).1, (push queue p v).2)
  | .pop => (.value (pop queue).1, (pop queue).2)
  | .popBatch k => (.values (popBatch queue k).1, (popBatch queue k).2)
  | .peek => (.value (peek queue), queue)
  | .reserve capacity => (.reserved (reserve queue capacity).1, (reserve queue capacity).2)
  | .clear => (.cleared, clear queue)

def run (queue : Queue) : List (StableQueue.Operation UInt64) →
    List (StableQueue.Operation UInt64 × StableQueue.Outcome UInt64) × Queue
  | [] => ([], queue)
  | operation :: rest =>
      ((operation, (step queue operation).1) :: (run (step queue operation).2 rest).1,
        (run (step queue operation).2 rest).2)

/-- Where a push makes a bucket grow, twice as many entries may be addressed. -/
def Addressable (queue : Queue) : List (StableQueue.Operation UInt64) → Prop
  | [] => True
  | operation :: rest =>
      (∀ p v, operation = .push p v → p < priorityCount → Grows (queue.buckets p) →
        Fits (queue.buckets p)) ∧
        Addressable (step queue operation).2 rest

theorem step_refines {queue : Queue} {q : ℕ → List UInt64}
    {operation : StableQueue.Operation UInt64} (h : queue.Stores q)
    (hfits : ∀ p v, operation = .push p v → p < priorityCount → Grows (queue.buckets p) →
      Fits (queue.buckets p)) :
    ∃ q', StableQueue.Step priorityCount q operation (step queue operation).1 q' ∧
      (step queue operation).2.Stores q' := by
  cases operation with
  | push p v =>
    by_cases hp : p < priorityCount
    · obtain ⟨queue', hpush, hstores⟩ := h.push hp (hfits p v rfl hp) v
      simp only [step, hpush]
      exact ⟨_, StableQueue.Step.push v hp, hstores⟩
    · have hpush : push queue p v = (false, queue) := by
        rw [push, priorityValid, decide_eq_false hp]
        rfl
      simp only [step, hpush]
      exact ⟨q, StableQueue.Step.refuse v hp, h⟩
  | pop =>
    obtain ⟨queue', hpop, hstores⟩ := h.pop
    simp only [step, hpop]
    exact ⟨_, StableQueue.Step.pop q, hstores⟩
  | popBatch k =>
    obtain ⟨queue', hpop, hstores⟩ := h.popBatch k
    simp only [step, hpop]
    exact ⟨_, StableQueue.Step.popBatch q k, hstores⟩
  | peek =>
    simp only [step, h.peek]
    exact ⟨q, StableQueue.Step.peek q, h⟩
  | reserve capacity => exact ⟨q, StableQueue.Step.reserve q capacity _, h.reserveFrom⟩
  | clear => exact ⟨_, StableQueue.Step.clear q, h.clear⟩

theorem run_refines {operations : List (StableQueue.Operation UInt64)} {queue : Queue}
    {q : ℕ → List UInt64} (h : queue.Stores q) (haddressable : Addressable queue operations) :
    ∃ q', StableQueue.Runs priorityCount q (run queue operations).1 q' ∧
      (run queue operations).2.Stores q' := by
  induction operations generalizing queue q with
  | nil => exact ⟨q, StableQueue.Runs.nil q, h⟩
  | cons operation rest ih =>
    obtain ⟨q', hstep, hstores⟩ := step_refines h haddressable.1
    obtain ⟨q'', hruns, hrest⟩ := ih hstores haddressable.2
    exact ⟨q'', StableQueue.Runs.cons hstep hruns, hrest⟩

/-- After any calls, the answers are those of a stable priority queue, and the counts and the mask are
those of its levels. -/
theorem stable_queue {capacity : ℕ} {queue : Queue} (hinit : initQueue capacity = some queue)
    {operations : List (StableQueue.Operation UInt64)} (haddressable : Addressable queue operations) :
    ∃ q, StableQueue.Runs priorityCount (fun _ => []) (run queue operations).1 q ∧
      (∀ p < priorityCount, ((run queue operations).2.buckets p).count = (q p).length) ∧
      (run queue operations).2.totalSize =
        ((List.range priorityCount).map fun p => ((run queue operations).2.buckets p).count).sum ∧
      ∀ p, (run queue operations).2.nonEmptyMask.toNat.testBit p = true ↔
        p < priorityCount ∧ ((run queue operations).2.buckets p).count ≠ 0 := by
  obtain ⟨q, hruns, hstores⟩ := run_refines (initQueue_stores hinit) haddressable
  have hcounts : ∀ p < priorityCount, ((run queue operations).2.buckets p).count = (q p).length :=
    fun p hp => (hstores.bucket p hp).count_eq
  refine ⟨q, hruns, hcounts, ?_, fun p => (hstores.mask p).trans (and_congr_right fun hp => ?_)⟩
  · rw [hstores.totalSize, total]
    refine congrArg List.sum (List.map_congr_left fun p hp => ?_)
    exact (hcounts p (List.mem_range.1 hp)).symm
  · rw [hcounts p hp, ne_eq, ne_eq, List.length_eq_zero_iff]

set_option maxRecDepth 4000 in
/-- Two values in different priorities, and both of them popped. -/
theorem stable_queue_two : ∃ queue, initQueue 0 = some queue ∧
    Addressable queue [.push 0 7, .push 3 9, .peek, .pop, .popBatch 4] ∧
    ∃ q, StableQueue.Runs priorityCount (fun _ => [])
      (run queue [.push 0 7, .push 3 9, .peek, .pop, .popBatch 4]).1 q := by
  have haddressable : Addressable ⟨fun _ => zeroBucket, 0, 0⟩
      [.push 0 7, .push 3 9, .peek, .pop, .popBatch 4] := by
    refine ⟨?_, ?_, nofun, nofun, nofun, trivial⟩
    · rintro p v ⟨⟩ - -
      exact Nat.zero_le _
    · rintro p v ⟨⟩ - -
      have hfits : 2 * ((step ⟨fun _ => zeroBucket, 0, 0⟩ (.push 0 7)).2.buckets 3).capacityEntries ≤
          (sizeMax - 1) / entrySize := by
        decide
      exact hfits
  obtain ⟨q, hruns, -⟩ := stable_queue (show initQueue 0 = some _ from rfl) haddressable
  exact ⟨_, rfl, haddressable, q, hruns⟩

end BucketQueue
