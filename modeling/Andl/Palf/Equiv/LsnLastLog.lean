import Andl.Palf.Equiv.LsnShape

/-!
# The last log of another replica
-/

namespace Andl.Palf.LSNAllocator

/-- What the allocator reports of the last log. -/
def Reports (a : LSNAllocator) (lsn : LSN) (logId : Int) (scn : SCN) : Prop :=
  a.getCurrEndLsn = lsn ∧ a.getMaxLogId = logId ∧ a.getMaxScn = scn

/-- One call of any kind, whether it succeeds or not. -/
inductive AnyCall : LSNAllocator → List Event → LSNAllocator → Prop
  | alloc {a : LSNAllocator} {baseScn : SCN} {size : Int} {logIdUpperBound : Int}
      {lsnUpperBound : LSN} (hid : logIdUpperBound < 2 ^ 63) :
      AnyCall a
        (allocEvents baseScn size
          (a.allocLsnScn baseScn size logIdUpperBound lsnUpperBound).1)
        (a.allocLsnScn baseScn size logIdUpperBound lsnUpperBound).2
  | tryFreeze {a : LSNAllocator} : AnyCall a [] (a.orUnchanged a.tryFreeze)
  | tryFreezeByTime {a : LSNAllocator} : AnyCall a [] (a.orUnchanged a.tryFreezeByTime)
  | incUpdateScnBase {a : LSNAllocator} {refScn : SCN} :
      AnyCall a [] (a.orUnchanged (a.incUpdateScnBase refScn))
  | incUpdateLastLogInfo {a : LSNAllocator} {lsn : LSN} {logId : Int} {scn : SCN}
      (hid : 0 ≤ logId ∧ logId < 2 ^ 63) :
      AnyCall a [] (a.orUnchanged (a.incUpdateLastLogInfo lsn logId scn))
  | truncate {a : LSNAllocator} {lsn : LSN} {logId : Int} {scn : SCN}
      (hid : 0 ≤ logId ∧ logId < 2 ^ 63) :
      AnyCall a [] (a.orUnchanged (a.truncate lsn logId scn))

/-- The log ids are 64-bit numbers that are not negative. -/
structure LogIds (a : LSNAllocator) : Prop where
  isInited : a.isInited = true
  lsnVal_lt : a.lsnTsMeta.lsnVal < 2 ^ 64
  delta_lt : a.lsnTsMeta.logIdDelta < 2 ^ 28
  scnBase_lt : a.scnBase < 2 ^ 64
  base_nonneg : 0 ≤ a.logIdBase
  lastLogId_lt : a.lastLogId < 2 ^ 63

section Reports

variable {a : LSNAllocator} {lsn : LSN} {logId : Int} {scn : SCN}

theorem isAhead_iff (h : LogIds a) :
    a.isAhead lsn logId = true ↔ a.getMaxLogId ≤ logId ∧ a.getCurrEndLsn ≤ lsn := by
  have hlsn : a.getCurrEndLsn.val = a.lsnTsMeta.lsnVal := Nat.mod_eq_of_lt h.lsnVal_lt
  rw [LSN.le_iff, hlsn, getMaxLogId, if_pos h.isInited, isAhead]
  simp

theorem logIdDeltaOf_eq (h : LogIds a) (hid : a.lastLogId ≤ logId) (hlt : logId < 2 ^ 63) :
    a.logIdDeltaOf logId = logId - a.logIdBase := by
  have := h.base_nonneg
  unfold lastLogId at hid
  exact wrap_of_range (by omega) (by omega)

theorem getMaxScn_of_lastScn (hinit : a.isInited = true) (hscn : scn.isValid = true)
    (h : a.lastScn = scn.val) : a.getMaxScn = scn := by
  have hle := (SCN.isValid_iff scn).mp hscn
  rw [getMaxScn, if_pos hinit, h, SCN.convertForLogservice, dif_pos hle]
  rfl

/-- With new bases the allocator reports the log. -/
theorem incUpdateWithBase_reports (h : LogIds a) (hscn : scn.isValid = true)
    (hahead : a.isAhead lsn logId = true) :
    Reports (a.incUpdateWithBase lsn logId scn) lsn logId scn ∧
      ((a.incUpdateWithBase lsn logId scn).lsnTsMeta.logIdDelta : Int) =
        logId - (a.incUpdateWithBase lsn logId scn).logIdBase ∧
      (a.incUpdateWithBase lsn logId scn).lsnTsMeta.scnDelta =
        (a.incUpdateWithBase lsn logId scn).scnDeltaOf scn := by
  have hlsn : lsn.val % 2 ^ 64 % 2 ^ 64 = lsn.val := by
    rw [Nat.mod_mod, Nat.mod_eq_of_lt lsn.isLt]
  rw [incUpdateWithBase, if_pos hahead]
  refine ⟨⟨LSN.ext hlsn, ?_, getMaxScn_of_lastScn h.isInited hscn ?_⟩, ?_, ?_⟩
  · simp [getMaxLogId, h.isInited, lastLogId, LSNTsMeta.pack]
  · exact Nat.mod_eq_of_lt scn.isLt
  · simp [LSNTsMeta.pack]
  · show 0 % 2 ^ 35 = (2 ^ 64 + scn.val - scn.val) % 2 ^ 64
    rw [Nat.add_sub_cancel, Nat.mod_self, Nat.zero_mod]

/-- With new deltas the allocator reports the log, and no delta is cut off. -/
theorem incUpdateWithDelta_reports (h : LogIds a) (hscn : scn.isValid = true)
    (hlt : logId < 2 ^ 63) (hahead : a.isAhead lsn logId = true) {a' : LSNAllocator}
    (hrun : a.incUpdateWithDelta lsn logId scn = some a') :
    Reports a' lsn logId scn ∧ (a'.lsnTsMeta.logIdDelta : Int) = logId - a'.logIdBase ∧
      a'.lsnTsMeta.scnDelta = a'.scnDeltaOf scn := by
  have hid : a.lastLogId ≤ logId := by
    have := ((isAhead_iff h).mp hahead).1
    rwa [getMaxLogId, if_pos h.isInited] at this
  have hdelta := logIdDeltaOf_eq h hid hlt
  have hnonneg : 0 ≤ logId - a.logIdBase := by
    unfold lastLogId at hid
    omega
  unfold incUpdateWithDelta at hrun
  split_ifs at hrun with hback hidBound hscnBound
  · simp [hahead] at hback
  · cases hrun
    unfold logIdDeltaUpperBound at hidBound
    unfold logTsDeltaUpperBound at hscnBound
    rw [hdelta] at hidBound ⊢
    have hlsn : lsn.val % 2 ^ 64 % 2 ^ 64 = lsn.val := by
      rw [Nat.mod_mod, Nat.mod_eq_of_lt lsn.isLt]
    have hlog : (((logId - a.logIdBase) % 2 ^ 64).toNat % 2 ^ 28 : Nat) =
        logId - a.logIdBase := by
      omega
    have hts : a.scnDeltaOf scn % 2 ^ 35 = a.scnDeltaOf scn := Nat.mod_eq_of_lt (by omega)
    refine ⟨⟨LSN.ext hlsn, ?_, getMaxScn_of_lastScn h.isInited hscn ?_⟩, hlog, hts⟩
    · rw [getMaxLogId, if_pos h.isInited, lastLogId]
      simp only [LSNTsMeta.pack, hlog]
      omega
    · -- the base and the unsigned difference give the scn again
      simp only [lastScn, LSNTsMeta.pack, hts]
      have := scn.isLt
      have := h.scnBase_lt
      unfold scnDeltaOf
      omega

end Reports

section Runs

variable {a a' : LSNAllocator} {es : List Event} {lsn : LSN} {logId : Int} {scn : SCN}

section

variable (h : LogIds a)
include h

/-- A change of the word that keeps the log id. -/
theorem LogIds.rebase (hinit : a'.isInited = a.isInited) (hlsn : a'.lsnTsMeta.lsnVal < 2 ^ 64)
    (hdelta : a'.lsnTsMeta.logIdDelta < 2 ^ 28) (hscn : a'.scnBase < 2 ^ 64)
    (hbase : 0 ≤ a'.logIdBase) (hid : a'.lastLogId = a.lastLogId) : LogIds a' :=
  ⟨hinit.trans h.isInited, hlsn, hdelta, hscn, hbase, hid ▸ h.lastLogId_lt⟩

theorem LogIds.freeze : LogIds a.freeze := by
  refine h.rebase rfl (Nat.mod_lt _ (by decide)) (Nat.mod_lt _ (by decide)) h.scnBase_lt
    h.base_nonneg ?_
  simp only [lastLogId, LSNAllocator.freeze, LSNTsMeta.pack, Nat.mod_eq_of_lt h.delta_lt]

theorem LogIds.incUpdateScnBase (refScn : SCN) :
    LogIds (a.orUnchanged (a.incUpdateScnBase refScn)) := by
  unfold LSNAllocator.incUpdateScnBase
  split_ifs
  · exact h
  · exact h
  · exact h
  · refine h.rebase rfl (Nat.mod_lt _ (by decide)) (Nat.mod_lt _ (by decide)) refScn.isLt
      h.base_nonneg ?_
    simp only [orUnchanged, lastLogId, LSNTsMeta.pack, Nat.mod_eq_of_lt h.delta_lt]

theorem LogIds.lastLogId_nonneg : 0 ≤ a.lastLogId := by
  have := h.base_nonneg
  unfold lastLogId
  omega

theorem LogIds.updateBase (baseScn : SCN) : LogIds (a.updateBase baseScn) := by
  refine h.rebase rfl (Nat.mod_lt _ (by decide)) (Nat.mod_lt _ (by decide)) ?_
    h.lastLogId_nonneg ?_
  · exact max_lt baseScn.isLt (Nat.mod_lt _ (by decide))
  · simp [lastLogId, LSNAllocator.updateBase, LSNTsMeta.pack]

theorem LogIds.allocRound (hdelta : a.lsnTsMeta.logIdDelta + 2 < 2 ^ 28)
    (baseScn : SCN) (size : Nat) {ub : Int} (hub : ub < 2 ^ 63) (lb : LSN) :
    LogIds (a.allocRound baseScn size ub lb).2 := by
  unfold LSNAllocator.allocRound
  cases hnext : nextPos a.lsnTsMeta size with
  | error e => exact h
  | ok pos =>
    dsimp only
    split_ifs with hbound
    · exact h
    · have hid := @lastLogId_nextMeta a pos baseScn hdelta
      have hswap : LogIds { a with lsnTsMeta := a.nextMeta baseScn pos } :=
        ⟨h.isInited, Nat.mod_lt _ (by decide), Nat.mod_lt _ (by decide), h.scnBase_lt,
          h.base_nonneg, by omega⟩
      cases SCN.convertForLogservice (a.tmpNextScn baseScn) with
      | none => exact hswap
      | some scn => exact hswap

theorem LogIds.allocLsnScn (baseScn : SCN) (size : Int) {ub : Int}
    (hub : ub < 2 ^ 63) (lb : LSN) : LogIds (a.allocLsnScn baseScn size ub lb).2 := by
  unfold LSNAllocator.allocLsnScn
  split_ifs with hinit hargs hupd
  · exact h
  · exact h
  · have hdelta : (a.updateBase baseScn).lsnTsMeta.logIdDelta + 2 < 2 ^ 28 := by
      show 0 % 2 ^ 28 + 2 < 2 ^ 28
      decide
    exact (h.updateBase baseScn).allocRound hdelta baseScn _ hub lb
  · exact h.allocRound (delta_of_needUpdateBase (by simpa using hupd)) baseScn _ hub lb

end

/-- An allocator with the bases of a log. -/
theorem logIds_bases (hinit : a.isInited = true) (hid : 0 ≤ logId ∧ logId < 2 ^ 63) :
    LogIds { a with lsnTsMeta := .pack true 0 0 lsn.val, logIdBase := logId, scnBase := scn.val } :=
  ⟨hinit, Nat.mod_lt _ (by decide), Nat.mod_lt _ (by decide), scn.isLt, hid.1, by
    simpa [lastLogId, LSNTsMeta.pack] using hid.2⟩

theorem LogIds.incUpdateLastLogInfo (h : LogIds a) (hid : 0 ≤ logId ∧ logId < 2 ^ 63) :
    LogIds (a.orUnchanged (a.incUpdateLastLogInfo lsn logId scn)) := by
  unfold LSNAllocator.incUpdateLastLogInfo
  split_ifs with hinit hargs
  · exact h
  · exact h
  · have hscn : scn.isValid = true := by
      push Not at hargs
      simpa using hargs.2.1
    cases hrun : a.incUpdateWithDelta lsn logId scn with
    | some a' =>
      cases hahead : a.isAhead lsn logId with
      | false =>
        rw [incUpdateWithDelta, if_pos hahead] at hrun
        cases hrun
        exact h
      | true =>
        obtain ⟨⟨-, hlog, -⟩, -, -⟩ := incUpdateWithDelta_reports h hscn hid.2 hahead hrun
        unfold incUpdateWithDelta at hrun
        split_ifs at hrun
        · simp_all
        · cases hrun
          rw [getMaxLogId, if_pos h.isInited] at hlog
          exact ⟨h.isInited, Nat.mod_lt _ (by decide), Nat.mod_lt _ (by decide), h.scnBase_lt,
            h.base_nonneg, lt_of_eq_of_lt hlog hid.2⟩
    | none =>
      show LogIds (a.incUpdateWithBase lsn logId scn)
      unfold incUpdateWithBase
      split_ifs
      · exact logIds_bases h.isInited hid
      · exact h

/-- Every call keeps the log ids in range. -/
theorem LogIds.anyCall (h : LogIds a) (hcall : AnyCall a es a') : LogIds a' := by
  cases hcall with
  | alloc hid => exact h.allocLsnScn _ _ hid _
  | tryFreeze =>
    unfold LSNAllocator.tryFreeze
    split_ifs
    · exact h
    · exact h
    · exact h.freeze
  | tryFreezeByTime =>
    unfold LSNAllocator.tryFreezeByTime
    split_ifs
    · exact h
    · exact h
    · exact h.freeze
  | incUpdateScnBase => exact h.incUpdateScnBase _
  | incUpdateLastLogInfo hid => exact h.incUpdateLastLogInfo hid
  | truncate hid =>
    unfold LSNAllocator.truncate
    split_ifs
    · exact h
    · exact h
    · exact logIds_bases h.isInited hid

end Runs

/-- **The last log is exactly the one that is given**, in every state that is reached. -/
theorem lastLogInfo_exact {logId₀ : Int} {scn₀ : SCN} {startLsn : LSN} {a₀ a : LSNAllocator}
    {es : List Event} (hinit : reset.init logId₀ scn₀ startLsn = .ok a₀)
    (hid₀ : 0 ≤ logId₀ ∧ logId₀ < 2 ^ 63) (hrun : Run AnyCall a₀ es a) {lsn : LSN} {logId : Int}
    {scn : SCN} (hlsn : lsn.isValid = true) (hid : 0 < logId ∧ logId < 2 ^ 63)
    (hscn : scn.isValid = true) :
    ∃ a', a.incUpdateLastLogInfo lsn logId scn = .ok a' ∧
      (logId < a.getMaxLogId ∨ lsn < a.getCurrEndLsn →
        a' = a ∧ a.incUpdateWithBase lsn logId scn = a) ∧
      (a.getMaxLogId ≤ logId → a.getCurrEndLsn ≤ lsn →
        Reports a' lsn logId scn ∧
        Reports (a.incUpdateWithBase lsn logId scn) lsn logId scn ∧
        (a'.lsnTsMeta.logIdDelta : Int) = logId - a'.logIdBase ∧
        a'.lsnTsMeta.scnDelta = a'.scnDeltaOf scn) := by
  have hstart : LogIds a₀ := by
    unfold init at hinit
    split_ifs at hinit
    cases hinit
    exact logIds_bases (a := { reset with isInited := true }) rfl hid₀
  have h : LogIds a :=
    hrun.invariant (fun _ b => LogIds b) (fun _ _ _ _ h hc => h.anyCall hc) hstart
  have hargs : ¬ (lsn.isValid = false ∨ scn.isValid = false ∨ logId = obInvalidLogId) := by
    rintro (hinvalid | hinvalid | hinvalid)
    · exact absurd (hlsn.symm.trans hinvalid) Bool.noConfusion
    · exact absurd (hscn.symm.trans hinvalid) Bool.noConfusion
    · unfold obInvalidLogId at hinvalid
      omega
  have hcall : a.incUpdateLastLogInfo lsn logId scn = .ok
      ((a.incUpdateWithDelta lsn logId scn).getD (a.incUpdateWithBase lsn logId scn)) := by
    unfold incUpdateLastLogInfo
    refine (if_neg (by simp [h.isInited])).trans ((if_neg hargs).trans ?_)
    cases a.incUpdateWithDelta lsn logId scn <;> rfl
  rw [hcall]
  cases hahead : a.isAhead lsn logId with
  | false =>
    have hsame : a.incUpdateWithDelta lsn logId scn = some a := by
      rw [incUpdateWithDelta, if_pos hahead]
    have hbase : a.incUpdateWithBase lsn logId scn = a := by
      rw [incUpdateWithBase, if_neg (by simp [hahead])]
    rw [hsame]
    refine ⟨a, rfl, fun _ => ⟨rfl, hbase⟩, fun hlog hend => ?_⟩
    rw [(isAhead_iff h).mpr ⟨hlog, hend⟩] at hahead
    cases hahead
  | true =>
    obtain ⟨hlog, hend⟩ := (isAhead_iff h).mp hahead
    have hbehind : ¬ (logId < a.getMaxLogId ∨ lsn < a.getCurrEndLsn) := by
      rintro (hlt | hlt)
      · omega
      · exact absurd hend (not_le.mpr hlt)
    obtain ⟨hreports, hdelta, hscnDelta⟩ := incUpdateWithBase_reports h hscn hahead
    cases hrun' : a.incUpdateWithDelta lsn logId scn with
    | some a' =>
      obtain ⟨hreports', hdelta', hscnDelta'⟩ :=
        incUpdateWithDelta_reports h hscn hid.2 hahead hrun'
      exact ⟨a', rfl, fun hlt => absurd hlt hbehind,
        fun _ _ => ⟨hreports', hreports, hdelta', hscnDelta'⟩⟩
    | none =>
      exact ⟨_, rfl, fun hlt => absurd hlt hbehind,
        fun _ _ => ⟨hreports, hreports, hdelta, hscnDelta⟩⟩

/-- A log with id 1 and scn 10 that ends at 156, received by a new allocator. -/
theorem lastLogInfo_exact_behind_log :
    ∃ es a a', Run AnyCall (fresh 5 0) es a ∧ a.getCurrEndLsn.val = 156 ∧
      a.incUpdateLastLogInfo (LSN.ofNat 100) 1 ⟨10, by decide⟩ = .ok a ∧
      a.incUpdateLastLogInfo (LSN.ofNat 300) 2 ⟨20, by decide⟩ = .ok a' ∧
      Reports a' (LSN.ofNat 300) 2 ⟨20, by decide⟩ := by
  have hinit : reset.init 0 ⟨5, by decide⟩ LSN.initial = .ok (fresh 5 0) := rfl
  have hrun := Run.single (@AnyCall.alloc (fresh 5 0) ⟨10, by decide⟩ 100 10 (LSN.ofNat 1000)
    (by decide))
  obtain ⟨a₁, hold, hsame, -⟩ := @lastLogInfo_exact 0 _ _ _ _ _ hinit (by decide) hrun
    (LSN.ofNat 100) 1 ⟨10, by decide⟩ (by decide) (by decide) (by decide)
  obtain ⟨a₂, hnew, -, hreports⟩ := @lastLogInfo_exact 0 _ _ _ _ _ hinit (by decide) hrun
    (LSN.ofNat 300) 2 ⟨20, by decide⟩ (by decide) (by decide) (by decide)
  rw [(hsame (.inr (by decide))).1] at hold
  exact ⟨_, _, a₂, hrun, by decide, hold, hnew, (hreports (by decide) (by decide)).1⟩

/-- `inc_update_last_log_info` can make the largest scn smaller. -/
theorem maxScn_goes_back :
    ∃ a₁ a₂, reset.init 0 ⟨1, by decide⟩ LSN.initial = .ok (fresh 1 0) ∧
      (fresh 1 0).incUpdateScnBase ⟨100, by decide⟩ = .ok a₁ ∧
      a₁.incUpdateLastLogInfo (LSN.ofNat 200) 1 ⟨50, by decide⟩ = .ok a₂ ∧
      a₁.getMaxScn.val = 100 ∧ a₂.getMaxScn.val = 50 :=
  ⟨_, _, rfl, rfl, rfl, by decide, by decide⟩

end Andl.Palf.LSNAllocator
