import TurboUtils.Chttp.Hpack.Synchrony

/-! A limit on the header list changes what the callback sees and nothing else. -/
namespace Chttp.Hpack
open WeightedPrefix

section decode

variable (h : Context) {σ : Type*} (cb : σ → Header → σ × Int) {limit : ℕ}

/-- The headers that still fit when so many bytes of the list are used; none after one that did
not. -/
def fitting (limit : ℕ) (listBytes : Option ℕ) (hdrs : List Header) : List Header :=
  match listBytes with
  | none => []
  | some n => if limit = 0 then hdrs else keepWithin entrySize (limit - n) hdrs

theorem addHeaderListSize_eq (hlimit : limit ≤ sizeMax) {n : ℕ} (hn : n ≤ limit) (hd : Header) :
    addHeaderListSize n hd limit =
      if limit = 0 then some n
      else if entrySize hd ≤ limit - n then some (n + entrySize hd) else none := by
  unfold addHeaderListSize entrySize
  split_ifs
  all_goals first | rfl | omega

def nextBytes (limit : ℕ) (listBytes : Option ℕ) (hd : Header) : Option ℕ :=
  listBytes.bind fun n => addHeaderListSize n hd limit

theorem nextBytes_le (hlimit : limit ≤ sizeMax) {listBytes : Option ℕ} {hd : Header}
    (hbytes : ∀ n ∈ listBytes, n ≤ limit) : ∀ n ∈ nextBytes limit listBytes hd, n ≤ limit := by
  intro n hn
  cases listBytes with
  | none => cases hn
  | some m =>
    have hm := hbytes m rfl
    rw [nextBytes, Option.bind_some, addHeaderListSize_eq hlimit hm] at hn
    split_ifs at hn
    · cases hn
      exact hm
    · cases hn
      omega
    · cases hn

theorem fitting_cons (hlimit : limit ≤ sizeMax) {listBytes : Option ℕ} {hd : Header}
    {hdrs : List Header} (hbytes : ∀ n ∈ listBytes, n ≤ limit) :
    fitting limit listBytes (hd :: hdrs) =
      if (nextBytes limit listBytes hd).isSome then
        hd :: fitting limit (nextBytes limit listBytes hd) hdrs
      else fitting limit (nextBytes limit listBytes hd) hdrs := by
  cases listBytes with
  | none => rfl
  | some n =>
    have hn := hbytes n rfl
    rw [nextBytes, Option.bind_some, addHeaderListSize_eq hlimit hn]
    unfold fitting
    dsimp only
    by_cases hzero : limit = 0
    · rw [if_pos hzero, if_pos hzero]
      dsimp only
      rw [if_pos hzero]
      rfl
    · rw [if_neg hzero, if_neg hzero]
      by_cases hfits : entrySize hd ≤ limit - n
      · rw [if_pos hfits, keepWithin_cons_of_le _ _ hfits, Nat.sub_sub]
        dsimp only
        rw [if_neg hzero]
        rfl
      · rw [if_neg hfits, keepWithin, if_neg hfits]
        rfl

theorem fitting_nil (limit : ℕ) (listBytes : Option ℕ) : fitting limit listBytes [] = [] := by
  cases listBytes with
  | none => rfl
  | some n => exact ite_self _

theorem decodeLoop_unlimited_nil {fuel : ℕ} {t t' : DynTable} {listBytes : Option ℕ} {s s' : σ}
    {status : DecodeStatus}
    (hdec : decodeLoop h cb limit fuel t listBytes s [] = (t', s', status)) :
    ∃ hdrs, (∀ seen, decodeLoop h collect 0 fuel t (some 0) seen [] = (t', seen ++ hdrs, .ok)) ∧
      s' = deliver cb s (fitting limit listBytes hdrs) := by
  rw [decodeLoop] at hdec
  cases hdec
  refine ⟨[], fun seen => ?_, ?_⟩
  · rw [decodeLoop, List.append_nil]
    rfl
  · rw [fitting_nil]
    rfl

/-- Where a decoder with a limit comes to an end, one without a limit comes to the same table. -/
theorem decodeLoop_unlimited (hlimit : limit ≤ sizeMax) {fuel : ℕ} {t t' : DynTable}
    {listBytes : Option ℕ} {s s' : σ} {input : Bytes} {status : DecodeStatus}
    (hbytes : ∀ n ∈ listBytes, n ≤ limit)
    (hdec : decodeLoop h cb limit fuel t listBytes s input = (t', s', status))
    (hstatus : status = .ok ∨ status = .tooLarge) :
    ∃ hdrs, (∀ seen, decodeLoop h collect 0 fuel t (some 0) seen input =
        (t', seen ++ hdrs, .ok)) ∧ s' = deliver cb s (fitting limit listBytes hdrs) := by
  induction fuel generalizing t listBytes s input with
  | zero =>
    cases input with
    | nil => exact decodeLoop_unlimited_nil h cb hdec
    | cons b rest =>
      rw [decodeLoop] at hdec
      · cases hdec
        rcases hstatus with hstatus | hstatus <;> cases hstatus
      · exact List.cons_ne_nil b rest
  | succ fuel ih =>
    cases input with
    | nil => exact decodeLoop_unlimited_nil h cb hdec
    | cons b rest =>
      have hfailed (t : DynTable) (s : σ) (other : DecodeStatus)
          (hother : other = .error ∨ other = .aborted) (heq : (t, s, other) = (t', s', status)) : False := by
        cases heq
        rcases hstatus with rfl | rfl <;> rcases hother with hother | hother <;> cases hother
      unfold decodeLoop at hdec ⊢
      cases hfield : decodeField h t (b :: rest) with
      | none =>
        rw [hfield] at hdec
        exact (hfailed _ _ _ (Or.inl rfl) hdec).elim
      | some decoded =>
        obtain ⟨field, behind⟩ := decoded
        rw [hfield] at hdec
        cases field with
        | sizeUpdate n =>
          dsimp only at hdec ⊢
          cases hupdate : decoderTableSizeUpdate h.decoderMaxSize t n with
          | none =>
            rw [hupdate] at hdec
            exact (hfailed _ _ _ (Or.inl rfl) hdec).elim
          | some updated =>
            rw [hupdate] at hdec
            exact ih hbytes hdec
        | header hd indexing =>
          obtain ⟨called, hcalled, hdeliver⟩ : ∃ called, called =
              (if (nextBytes limit listBytes hd).isSome then cb s hd else (s, 0)) ∧
              ∀ hdrs, deliver cb called.1 (fitting limit (nextBytes limit listBytes hd) hdrs) =
                deliver cb s (fitting limit listBytes (hd :: hdrs)) := by
            refine ⟨_, rfl, fun hdrs => ?_⟩
            rw [fitting_cons hlimit hbytes]
            split_ifs <;> rfl
          have hnext : ∀ n ∈ nextBytes limit listBytes hd, n ≤ limit := nextBytes_le hlimit hbytes
          change (if (if (nextBytes limit listBytes hd).isSome then cb s hd else (s, 0)).2 ≠ 0 then _
            else _) = _ at hdec
          rw [← hcalled] at hdec
          by_cases habort : called.2 ≠ 0
          · rw [if_pos habort] at hdec
            exact (hfailed _ _ _ (Or.inr rfl) hdec).elim
          rw [if_neg habort] at hdec
          rw [hcalled] at hdeliver
          cases indexing with
          | false =>
            obtain ⟨hdrs, hwhole, hstate⟩ := ih hnext hdec
            refine ⟨hd :: hdrs, fun seen => ?_, hstate.trans (hdeliver hdrs)⟩
            have hseen := hwhole (seen ++ [hd])
            rw [List.append_assoc] at hseen
            exact hseen
          | true =>
            dsimp only at hdec ⊢
            rw [if_pos rfl] at hdec
            cases hadd : dynTableAdd t hd with
            | none =>
              rw [hadd] at hdec
              exact (hfailed _ _ _ (Or.inl rfl) hdec).elim
            | some added =>
              rw [hadd] at hdec
              obtain ⟨hdrs, hwhole, hstate⟩ := ih hnext hdec
              refine ⟨hd :: hdrs, fun seen => ?_, hstate.trans (hdeliver hdrs)⟩
              have hseen := hwhole (seen ++ [hd])
              rw [List.append_assoc] at hseen
              exact hseen

/-- A block that is decoded with a limit is decoded without one to the same table and the same
position, and the callback has seen the longest start of the header list that is within the limit. -/
theorem header_list_limit (hlimit : limit ≤ sizeMax) {s s' : σ} {input : Bytes} {t : DynTable}
    {status : DecodeStatus} {consumed : ℕ}
    (hdec : hpackDecode h cb limit s input = (t, s', status, consumed))
    (hstatus : status = .ok ∨ status = .tooLarge) :
    ∃ hdrs delivered, hpackDecode h collect 0 [] input = (t, hdrs, .ok, consumed) ∧
      s' = deliver cb s delivered ∧ delivered <+: hdrs ∧ (limit = 0 → delivered = hdrs) ∧
      (limit ≠ 0 → total entrySize delivered ≤ limit ∧ ∀ start, start <+: hdrs →
        total entrySize start ≤ limit → start <+: delivered) := by
  unfold hpackDecode at hdec ⊢
  by_cases hblock : h.maxHeaderBlockBytes < input.length
  · rw [if_pos hblock] at hdec
    cases hdec
    rcases hstatus with hstatus | hstatus <;> cases hstatus
  · rw [if_neg hblock] at hdec ⊢
    dsimp only at hdec
    rw [Prod.mk.injEq, Prod.mk.injEq, Prod.mk.injEq] at hdec
    obtain ⟨rfl, rfl, hreturn, rfl⟩ := hdec
    rw [← hreturn] at hstatus
    obtain ⟨hdrs, hwhole, hstate⟩ := decodeLoop_unlimited h cb hlimit
      (fun n hn => Option.some.inj hn ▸ Nat.zero_le limit) rfl hstatus
    refine ⟨hdrs, fitting limit (some 0) hdrs, ?_, hstate, ?_, fun hzero => ?_, fun hne => ?_⟩
    · rw [hwhole [], if_pos hstatus]
      rfl
    · unfold fitting
      dsimp only
      split_ifs
      · exact List.prefix_rfl
      · exact keepWithin_isPrefix _ _ _
    · exact if_pos hzero
    · have hfitting : fitting limit (some 0) hdrs = keepWithin entrySize limit hdrs := if_neg hne
      rw [hfitting]
      exact ⟨total_keepWithin_le _ _ _, fun start => keepWithin_longest _⟩

end decode

/-- Two fields of the static table, of which the limit lets the first one pass. -/
theorem header_list_limit_two : ∃ (h : Context) (t : DynTable) (seen : List Header),
    hpackCreate ⟨4096, 4096, 4096⟩ = some h ∧
      hpackDecode h collect 42 [] [0x82, 0x84] = (t, seen, .tooLarge, 2) ∧
      ∃ hdrs delivered, hpackDecode h collect 0 [] [0x82, 0x84] = (t, hdrs, .ok, 2) ∧
        seen = deliver collect [] delivered ∧ delivered <+: hdrs := by
  obtain ⟨h, hcreate⟩ : ∃ h, hpackCreate ⟨4096, 4096, 4096⟩ = some h := ⟨_, rfl⟩
  obtain ⟨t, seen, hdec⟩ : ∃ t seen, hpackDecode h collect 42 [] [0x82, 0x84] =
      (t, seen, DecodeStatus.tooLarge, 2) := by
    cases hcreate
    exact ⟨_, _, rfl⟩
  obtain ⟨hdrs, delivered, hwhole, hseen, hstart, -⟩ :=
    header_list_limit h collect (show 42 ≤ sizeMax by decide) hdec (Or.inr rfl)
  exact ⟨h, t, seen, hcreate, hdec, hdrs, delivered, hwhole, hseen, hstart⟩

end Chttp.Hpack
