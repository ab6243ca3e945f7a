import TurboUtils.Chttp.Hpack.Table

/-! The decoder's dynamic table against the eviction rules of RFC 7541, section 4.
The reference inserts after making room; the code inserts and then evicts, and bounds
the number of entries as well as their bytes. -/
namespace Chttp.Hpack
open WeightedPrefix

/-- The state RFC 7541 prescribes for a decoder: the entries newest first, the
maximum in force, the advertised maximum and the configured one. -/
structure RfcDecoder where
  entries : List Header
  maxSize : ℕ
  advertised : ℕ
  configured : ℕ
  deriving DecidableEq, Repr

inductive DecoderOp where
  | add (h : Header)
  | tableSizeUpdate (n : ℕ)
  | setMaxSize (n : ℕ)
  deriving DecidableEq, Repr

namespace RfcDecoder

def init (c : HpackConfig) : RfcDecoder :=
  ⟨[], c.maxDynamicTableBytes, c.maxDynamicTableBytes, c.maxDynamicTableBytes⟩

/-- Section 4.4: entries are evicted from the old end until the new one fits; an
entry larger than the maximum empties the table. -/
def add (r : RfcDecoder) (h : Header) : RfcDecoder :=
  { r with
    entries :=
      if entrySize h ≤ r.maxSize then
        h :: keepWithin entrySize (r.maxSize - entrySize h) r.entries
      else [] }

def resize (r : RfcDecoder) (n : ℕ) : RfcDecoder :=
  { r with maxSize := n, entries := keepWithin entrySize n r.entries }

def accepts (r : RfcDecoder) : DecoderOp → Bool
  | .add _ => true
  | .tableSizeUpdate n => decide (n ≤ r.advertised)
  | .setMaxSize n => decide (n ≤ r.configured)

def step (r : RfcDecoder) : DecoderOp → RfcDecoder
  | .add h => r.add h
  | .tableSizeUpdate n => if n ≤ r.advertised then r.resize n else r
  | .setMaxSize n => if n ≤ r.configured then { r.resize n with advertised := n } else r

end RfcDecoder

def decoderStep (h : Context) : DecoderOp → Context × Bool
  | .add hd =>
      match dynTableAdd h.decoder hd with
      | none => (h, false)
      | some t => ({ h with decoder := t }, true)
  | .tableSizeUpdate n =>
      match decoderTableSizeUpdate h.decoderMaxSize h.decoder n with
      | none => (h, false)
      | some t => ({ h with decoder := t }, true)
  | .setMaxSize n => decoderSetMaxSize h n

/-- Entries, size and count of the code's table are those of the reference. -/
def TableMatches (h : Context) (r : RfcDecoder) : Prop :=
  h.decoder.headers = r.entries ∧ h.decoder.size = total entrySize r.entries ∧
    h.decoder.count = r.entries.length

/-- After every call of the run the code returned what the reference prescribes and
holds the table the reference holds. -/
def RunAgrees : Context → RfcDecoder → List DecoderOp → Prop
  | h, r, [] => TableMatches h r
  | h, r, op :: ops =>
      TableMatches h r ∧ (decoderStep h op).2 = r.accepts op ∧
        RunAgrees (decoderStep h op).1 (r.step op) ops

/-- The additions on which the code follows the reference: one that fits must find the
table below `max_dynamic_table_bytes / 32` entries, one that does not fit must find it empty. -/
def AddMeets (h : Context) (hd : Header) : Prop :=
  (entrySize hd ≤ h.decoder.maxSize → h.decoder.count < h.maxDynamicTableBytes / 32) ∧
    (h.decoder.maxSize < entrySize hd → h.decoder.count = 0 ∧ entrySize hd ≤ sizeMax)

def OpMeets (h : Context) : DecoderOp → Prop
  | .add hd => AddMeets h hd
  | .tableSizeUpdate _ | .setMaxSize _ => True

def RunMeets : Context → List DecoderOp → Prop
  | _, [] => True
  | h, op :: ops => OpMeets h op ∧ RunMeets (decoderStep h op).1 ops

instance (h : Context) (op : DecoderOp) : Decidable (OpMeets h op) := by
  unfold OpMeets AddMeets
  split <;> infer_instance

/-- The code and the reference in step; everything the next call reads agrees. -/
structure InStep (h : Context) (r : RfcDecoder) : Prop where
  wf : h.decoder.Wf h.maxDynamicTableBytes
  bound : h.maxDynamicTableBytes ≤ uint32Max
  entries : h.decoder.headers = r.entries
  maxSize : h.decoder.maxSize = r.maxSize
  advertised : h.decoderMaxSize = r.advertised
  configured : h.maxDynamicTableBytes = r.configured
  advertised_le : r.advertised ≤ r.configured

theorem InStep.tableMatches {h : Context} {r : RfcDecoder} (hs : InStep h r) : TableMatches h r :=
  ⟨hs.entries, by rw [hs.wf.size_eq, hs.entries], by
    rw [← hs.entries, DynTable.headers, List.length_map, DynTable.count]⟩

theorem inStep_create {c : HpackConfig} {h : Context} (hc : hpackCreate c = some h) :
    InStep h (RfcDecoder.init c) := by
  unfold hpackCreate at hc
  split_ifs at hc with hbad
  obtain rfl := Option.some.inj hc
  refine ⟨⟨by simp, rfl, Nat.zero_le _, le_rfl, rfl, le_rfl, Nat.zero_le _⟩, ?_, rfl, rfl, rfl,
    rfl, le_rfl⟩
  simp only
  omega

/-- An addition keeps the two in step exactly when it meets the condition. -/
theorem add_agrees_iff {h : Context} {r : RfcDecoder} (hs : InStep h r) (hd : Header) :
    ((decoderStep h (.add hd)).2 = true ∧ TableMatches (decoderStep h (.add hd)).1 (r.add hd)) ↔
      AddMeets h hd := by
  have hent := hs.wf.maxEntries_eq
  rcases hs.wf.add_cases hs.bound hd with ⟨hnone, hwhy⟩ | ⟨hsame, hbig⟩ | ⟨t', hsome, hfit, hlt, h'⟩
  · have hmax := hs.wf.maxSize_le
    have hb := hs.bound
    simp only [uint32Max] at hb
    constructor
    · intro hok
      simp [decoderStep, hnone] at hok
    · intro hmeet
      exfalso
      rcases hwhy with hov | ⟨hfit, hfull⟩
      · have hov' : 2 ^ 64 - 1 < entrySize hd := hov
        have := (hmeet.2 (by omega)).2
        omega
      · have := hmeet.1 hfit
        omega
  · -- The code keeps its table where the reference empties it.
    have hnil : h.decoder.count = 0 ↔ h.decoder.headers = [] := by
      simp [DynTable.count, DynTable.headers]
    have hov : entrySize hd ≤ sizeMax := by
      by_contra hov
      unfold dynTableAdd at hsame
      rw [if_pos] at hsame
      · exact absurd hsame (by simp)
      · simp only [entrySize, sizeMax] at hov ⊢
        omega
    have hempty : (r.add hd).entries = [] := by
      simp [RfcDecoder.add, show ¬entrySize hd ≤ r.maxSize by rw [← hs.maxSize]; omega]
    simp only [decoderStep, hsame, true_and]
    constructor
    · intro hm
      refine ⟨fun hle => absurd hle (by omega), fun _ => ⟨?_, hov⟩⟩
      rw [hnil, hm.1, hempty]
    · intro hmeet
      have hz := hnil.mp (hmeet.2 hbig).1
      have hsz : h.decoder.size = 0 := by rw [hs.wf.size_eq, hz, total_nil]
      exact ⟨by rw [hempty]; exact hz, by rw [hempty]; exact hsz, by
        rw [hempty]; exact (hmeet.2 hbig).1⟩
  · have hadd : t'.headers = (r.add hd).entries := by
      rw [h'.2.2, RfcDecoder.add, if_pos (by rw [← hs.maxSize]; exact hfit), hs.maxSize, hs.entries]
    simp only [decoderStep, hsome, true_and]
    constructor
    · intro _
      exact ⟨fun _ => by omega, fun hbig => absurd hbig (by omega)⟩
    · intro _
      exact ⟨hadd, by rw [h'.1.size_eq, hadd], by
        rw [← hadd, DynTable.headers, List.length_map, DynTable.count]⟩

/-- A call that meets the condition keeps the code and the reference in step. -/
theorem inStep_step {h : Context} {r : RfcDecoder} (hs : InStep h r) (op : DecoderOp)
    (hm : OpMeets h op) :
    (decoderStep h op).2 = r.accepts op ∧ InStep (decoderStep h op).1 (r.step op) := by
  cases op with
  | add hd =>
    obtain ⟨hok, hmatch⟩ := (add_agrees_iff hs hd).mpr hm
    refine ⟨hok, ?_⟩
    simp only [RfcDecoder.step]
    rcases hs.wf.add_cases hs.bound hd with ⟨hnone, -⟩ | ⟨hsame, -⟩ | ⟨t', hsome, -, -, hw, hmax, -⟩
    · simp [decoderStep, hnone] at hok
    · simp only [decoderStep, hsame] at hmatch ⊢
      exact ⟨hs.wf, hs.bound, hmatch.1, hs.maxSize, hs.advertised, hs.configured, hs.advertised_le⟩
    · simp only [decoderStep, hsome] at hmatch ⊢
      exact ⟨hw, hs.bound, hmatch.1, hmax.trans hs.maxSize, hs.advertised, hs.configured,
        hs.advertised_le⟩
  | tableSizeUpdate n =>
    have hadv := hs.advertised
    have hconf := hs.configured
    have hle := hs.advertised_le
    by_cases hn : n ≤ r.advertised
    · have hcode : decoderStep h (.tableSizeUpdate n) =
          ({ h with decoder := dynTableEvict { h.decoder with maxSize := n } }, true) := by
        simp [decoderStep, decoderTableSizeUpdate, show ¬h.decoderMaxSize < n by omega]
      rw [hcode, RfcDecoder.step, if_pos hn]
      refine ⟨by simp [RfcDecoder.accepts, hn], hs.wf.resize (by omega), hs.bound, ?_,
        hs.wf.resize_maxSize n, hadv, hconf, hle⟩
      exact (hs.wf.resize_headers n).trans (by rw [hs.entries]; rfl)
    · have hcode : decoderStep h (.tableSizeUpdate n) = (h, false) := by
        simp [decoderStep, decoderTableSizeUpdate, show h.decoderMaxSize < n by omega]
      rw [hcode, RfcDecoder.step, if_neg hn]
      exact ⟨by simp [RfcDecoder.accepts]; omega, hs⟩
  | setMaxSize n =>
    have hconf := hs.configured
    by_cases hn : n ≤ r.configured
    · have hcode : decoderStep h (.setMaxSize n) =
          ({ h with decoder := dynTableEvict { h.decoder with maxSize := n }, decoderMaxSize := n },
            true) := by
        simp [decoderStep, decoderSetMaxSize, show ¬h.maxDynamicTableBytes < n by omega]
      rw [hcode, RfcDecoder.step, if_pos hn]
      refine ⟨by simp [RfcDecoder.accepts, hn], hs.wf.resize (by omega), hs.bound, ?_,
        hs.wf.resize_maxSize n, rfl, hconf, hn⟩
      exact (hs.wf.resize_headers n).trans (by rw [hs.entries]; rfl)
    · have hcode : decoderStep h (.setMaxSize n) = (h, false) := by
        simp [decoderStep, decoderSetMaxSize, show h.maxDynamicTableBytes < n by omega]
      rw [hcode, RfcDecoder.step, if_neg hn]
      exact ⟨by simp [RfcDecoder.accepts]; omega, hs⟩

theorem runAgrees_iff {h : Context} {r : RfcDecoder} (hs : InStep h r) (ops : List DecoderOp) :
    RunAgrees h r ops ↔ RunMeets h ops := by
  induction ops generalizing h r with
  | nil => exact ⟨fun _ => trivial, fun _ => hs.tableMatches⟩
  | cons op ops ih =>
    constructor
    · rintro ⟨-, hok, hrest⟩
      have hmeet : OpMeets h op := by
        cases op with
        | add hd =>
          refine (add_agrees_iff hs hd).mp ⟨hok, ?_⟩
          cases ops with
          | nil => exact hrest
          | cons _ _ => exact hrest.1
        | tableSizeUpdate n => trivial
        | setMaxSize n => trivial
      exact ⟨hmeet, (ih (inStep_step hs op hmeet).2).mp hrest⟩
    · rintro ⟨hmeet, hrest⟩
      obtain ⟨hok, hnext⟩ := inStep_step hs op hmeet
      exact ⟨hs.tableMatches, hok, (ih hnext).mpr hrest⟩

/-- The decoder's table is RFC 7541's along a run exactly when every addition of the run
meets `AddMeets` in the state it finds. -/
theorem decoder_table_rfc_iff {c : HpackConfig} {h : Context} (hc : hpackCreate c = some h)
    (ops : List DecoderOp) : RunAgrees h (RfcDecoder.init c) ops ↔ RunMeets h ops :=
  runAgrees_iff (inStep_create hc) ops

def smallTable : Context :=
  let table : DynTable := ⟨[], 0, 2, 0, 64⟩
  ⟨table, table, huffTreeBuild, 64, 0, 0, false, 64, 64, 64⟩

theorem decoder_table_rfc_two_entries :
    RunAgrees smallTable (RfcDecoder.init ⟨64, 64, 64⟩)
      [.add ⟨[], []⟩, .tableSizeUpdate 40, .setMaxSize 64, .add ⟨[], []⟩] :=
  (decoder_table_rfc_iff (h := smallTable) (c := ⟨64, 64, 64⟩) rfl _).mpr
    ⟨by decide, by decide, by decide, by decide, trivial⟩

/-- A third minimal entry is refused by a full table of `64 / 32` entries, and an entry
above the maximum leaves the old entries in place. -/
theorem decoder_table_not_rfc :
    hpackCreate ⟨64, 64, 64⟩ = some smallTable ∧
    ¬RunAgrees smallTable (RfcDecoder.init ⟨64, 64, 64⟩)
      [.add ⟨[], []⟩, .add ⟨[], []⟩, .add ⟨[], []⟩] ∧
    ¬RunAgrees smallTable (RfcDecoder.init ⟨64, 64, 64⟩)
      [.add ⟨[], []⟩, .add ⟨List.replicate 33 0, []⟩] := by
  refine ⟨rfl, ?_, ?_⟩
  · rintro ⟨-, -, -, -, -, hok, -⟩
    exact absurd hok (by decide)
  · rintro ⟨-, -, -, -, hent, -, -⟩
    exact absurd hent (by decide)

end Chttp.Hpack
