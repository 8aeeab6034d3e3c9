import Andl.Lib.Run
import Andl.Lib.Watermark
import Andl.Storage.Equiv.TxCallbackList

/-!
# The transaction checksum
-/

namespace Andl.Storage

open List

variable {crcByte : UInt64 → UInt8 → UInt64} {σ : Type}

/-! ### The invariant -/

/-- A callback whose log is submitted. -/
structure Logged (cb : ObITransCallback) : Prop where
  need : cb.needSubmitLog = false
  pos : 0 < cb.scn.val
  lt_max : cb.scn.val < SCN.obMaxScnTsNs

/-- A callback whose log is not submitted yet. -/
structure Unlogged (cb : ObITransCallback) : Prop where
  need : cb.needSubmitLog = true
  scn : cb.scn = SCN.maxScn

variable {cb : ObITransCallback} {s : LeaderState}

theorem Logged.valid (h : Logged cb) : cb.scn.isValid = true :=
  (SCN.isValid_iff _).mpr (Nat.le_of_lt h.lt_max)

theorem Logged.ne_min (h : Logged cb) : cb.scn ≠ SCN.minScn := by
  intro heq
  have := h.pos
  rw [heq] at this
  exact absurd this (Nat.lt_irrefl 0)

/-- The logged callbacks of a list. -/
def loggedOf (l : List ObITransCallback) : List ObITransCallback :=
  l.filter (fun cb => !cb.needSubmitLog)

theorem loggedOf_append (l l' : List ObITransCallback) :
    loggedOf (l ++ l') = loggedOf l ++ loggedOf l' := filter_append ..

theorem mem_loggedOf {l : List ObITransCallback} :
    cb ∈ loggedOf l ↔ cb ∈ l ∧ cb.needSubmitLog = false := by
  unfold loggedOf
  rw [mem_filter]
  simp

/-- The counters of a list: what `reset` checks at the end of a transaction. -/
structure Tally (l : ObTxCallbackList) : Prop where
  length : l.length = l.callbacks.length
  appended : l.length + l.removed = l.appended
  logged : l.logged + l.unlogRemoved + l.callbacks.countP (·.needSubmitLog) = l.appended

/-- The list after the callbacks `G` were logged. -/
structure Holds (crcByte : UInt64 → UInt8 → UInt64) (G : List ObITransCallback)
    (l : ObTxCallbackList) : Prop where
  good : ∀ cb ∈ l.callbacks, Logged cb ∨ Unlogged cb
  first : LoggedFirst l.callbacks
  nodup : (l.callbacks.map (·.addr)).Nodup
  cursor : l.logCursor = firstUnlogged l.callbacks
  logged : ∀ cb ∈ G, Logged cb
  counted : Watermark.Counted (·.scn.val) G (loggedOf l.callbacks)
    (l.batchChecksum.calls.map (·.2)) l.checksumScn.val
  below : ∀ c ∈ l.batchChecksum.calls, SCN.le c.1 c.2.scn = true
  sound : l.batchChecksum.Sound crcByte
  watermark : l.checksumScn = SCN.minScn ∨ ∃ cb ∈ G, l.checksumScn.val = cb.scn.val + 1
  sync : l.syncScn.val < SCN.obMaxScnTsNs
  checksum : l.checksum = 0
  enabled : l.skipChecksum = false
  tally : Tally l

section

variable {G : List ObITransCallback} {l : ObTxCallbackList}

theorem Holds.checksumScn_valid (h : Holds crcByte G l) : l.checksumScn.isValid = true := by
  rw [SCN.isValid_iff]
  rcases h.watermark with heq | ⟨cb, hcb, heq⟩
  · rw [heq]
    exact Nat.zero_le _
  · rw [heq]
    exact (h.logged cb hcb).lt_max

variable {cb : ObITransCallback}

theorem Holds.logged_of_mem (h : Holds crcByte G l) (hcb : cb ∈ l.callbacks)
    (hneed : cb.needSubmitLog = false) : Logged cb := by
  rcases h.good cb hcb with hlogged | hunlogged
  · exact hlogged
  · rw [hunlogged.need] at hneed
    cases hneed

theorem Holds.ne_min (h : Holds crcByte G l) (hcb : cb ∈ l.callbacks) : cb.scn ≠ SCN.minScn := by
  rcases h.good cb hcb with hlogged | hunlogged
  · exact hlogged.ne_min
  · rw [hunlogged.scn]
    decide

theorem Holds.sorted (h : Holds crcByte G l) :
    (loggedOf l.callbacks).Pairwise (fun a b => a.scn.val ≤ b.scn.val) :=
  h.counted.sorted.sublist h.counted.kept

/-- The cursor is not at a logged callback. -/
theorem Holds.logCursor_ne (h : Holds crcByte G l) (hcb : cb ∈ l.callbacks)
    (hneed : cb.needSubmitLog = false) : l.logCursor ≠ some cb.addr := by
  rw [h.cursor]
  intro heq
  unfold firstUnlogged at heq
  obtain ⟨c, hc, haddr⟩ := Option.map_eq_some_iff.mp heq
  have hsame : c = cb :=
    inj_on_of_nodup_map h.nodup (mem_of_find?_eq_some hc) hcb haddr
  have := find?_some hc
  rw [hsame, hneed] at this
  cases this

end

/-- The SCN that a pass keeps is that of the last callback it marks. -/
theorem foldl_scn_cases {F : List ObITransCallback} (init : SCN)
    (hF : F.Pairwise (fun a b => a.scn.val ≤ b.scn.val)) :
    F = [] ∧ F.foldl (fun _ cb => cb.scn) init = init ∨
      ∃ m ∈ F, F.foldl (fun _ cb => cb.scn) init = m.scn ∧ ∀ cb ∈ F, cb.scn.val ≤ m.scn.val := by
  induction F generalizing init with
  | nil => exact Or.inl ⟨rfl, rfl⟩
  | cons cb F ih =>
    right
    rw [pairwise_cons] at hF
    rw [foldl_cons]
    rcases ih cb.scn hF.2 with ⟨rfl, heq⟩ | ⟨m, hm, heq, hmax⟩
    · refine ⟨cb, mem_cons_self, heq, fun c hc => ?_⟩
      rw [mem_singleton.mp hc]
    · refine ⟨m, mem_cons_of_mem _ hm, heq, fun c hc => ?_⟩
      rcases mem_cons.mp hc with rfl | hc
      · exact hF.1 m hm
      · exact hmax c hc

/-! ### One pass -/

/-- A pass counts the logged callbacks from the watermark on, and stops between two logs. -/
structure Passes (crcByte : UInt64 → UInt8 → UInt64) (l : ObTxCallbackList)
    (f : ObITxCallbackFunctor σ) (p : Plan σ) (last : Option ℕ) (bound : SCN) : Prop where
  follows : Follows crcByte f p l.checksumScn (· ∈ l.callbacks)
  counts : ∀ cb ∈ l.callbacks,
    p.counts cb = (!cb.needSubmitLog && decide (l.checksumScn.val ≤ cb.scn.val))
  marks_of_counts : ∀ cb ∈ l.callbacks, p.counts cb = true → p.marks cb = true
  logged_of_marks : ∀ cb ∈ l.callbacks, p.marks cb = true → cb.needSubmitLog = false
  last : last = none ∨ last = l.logCursor
  goes_on : ∀ state, ∀ cb ∈ l.callbacks, cb.needSubmitLog = false →
    f.isIterEnd state cb = false → SCN.gt cb.scn bound = false
  stops : ∀ state, ∀ cb ∈ l.callbacks, cb.needSubmitLog = false →
    f.isIterEnd state cb = true → SCN.gt cb.scn bound = true ∨
      cb.scn ≠ p.last state ∧ ∀ c ∈ l.callbacks, c.needSubmitLog = false → p.marks c = true

section

variable {G : List ObITransCallback} {l : ObTxCallbackList} {f : ObITxCallbackFunctor σ}
  {p : Plan σ} {last : Option ℕ} {bound : SCN} {V R : List ObITransCallback} {t : Traversal σ}
  {r : List ObITransCallback × Traversal σ × ObResult Unit}

theorem Holds.sorted_append (h : Holds crcByte G l) (heq : l.callbacks = V ++ R) :
    (loggedOf V).Pairwise (fun a b => a.scn.val ≤ b.scn.val) ∧
      (loggedOf R).Pairwise (fun a b => a.scn.val ≤ b.scn.val) ∧
      ∀ a ∈ loggedOf V, ∀ b ∈ loggedOf R, a.scn.val ≤ b.scn.val := by
  have hsorted := h.sorted
  rw [heq, loggedOf_append] at hsorted
  exact pairwise_append.mp hsorted

/-- The SCN that a pass keeps, over the callbacks it visited. -/
theorem Passes.last_cases (h : Holds crcByte G l) (hp : Passes crcByte l f p last bound)
    (hV : Visited crcByte f p l.checksumScn last l.callbacks t r V R)
    (hinit : p.last t.functor = SCN.minScn) :
    V.filter p.marks = [] ∧ p.last r.2.1.functor = SCN.minScn ∨
      ∃ m ∈ V, m.needSubmitLog = false ∧ p.last r.2.1.functor = m.scn ∧
        ∀ cb ∈ V, p.marks cb = true → cb.scn.val ≤ m.scn.val := by
  have hmem : ∀ cb ∈ V, cb ∈ l.callbacks := fun cb hcb => by
    rw [hV.eq_append]
    exact mem_append_left R hcb
  have hsub : (V.filter p.marks).Sublist (loggedOf V) := by
    have hall : V.filter p.marks = (loggedOf V).filter p.marks := by
      unfold loggedOf
      rw [filter_filter]
      refine filter_congr fun cb hcb => ?_
      cases hm : p.marks cb with
      | false => rfl
      | true => rw [hp.logged_of_marks cb (hmem cb hcb) hm]; rfl
    rw [hall]
    exact filter_sublist
  have hsorted := (h.sorted_append hV.eq_append).1.sublist hsub
  rw [hV.marked, hinit]
  rcases foldl_scn_cases SCN.minScn hsorted with ⟨hnil, hfold⟩ | ⟨m, hm, hfold, hmax⟩
  · exact Or.inl ⟨hnil, hfold⟩
  · obtain ⟨hmV, hmarks⟩ := mem_filter.mp hm
    exact Or.inr ⟨m, hmV, hp.logged_of_marks m (hmem m hmV) hmarks, hfold,
      fun cb hcb hmark => hmax cb (mem_filter.mpr ⟨hcb, hmark⟩)⟩

/-- The callbacks a checksum pass visited were logged before those it left. -/
theorem Passes.between (h : Holds crcByte G l) (hp : Passes crcByte l f p last bound)
    (hV : Visited crcByte f p l.checksumScn last l.callbacks t r V R)
    (hinit : p.last t.functor = SCN.minScn) :
    ∀ a ∈ loggedOf V, ∀ b ∈ loggedOf R, a.scn.val < b.scn.val := by
  intro a ha b hb
  obtain ⟨-, hsortR, hsortVR⟩ := h.sorted_append hV.eq_append
  rw [mem_loggedOf] at ha
  cases R with
  | nil => cases hb
  | cons c R =>
    have hmemV : ∀ x ∈ V, x ∈ l.callbacks := fun x hx => by
      rw [hV.eq_append]
      exact mem_append_left _ hx
    have hc : c ∈ l.callbacks := by
      rw [hV.eq_append]
      exact mem_append_right V mem_cons_self
    -- the callback where the pass stopped is logged, or nothing after it is
    have hneed : c.needSubmitLog = false := by
      by_contra hneed
      rw [Bool.not_eq_false] at hneed
      have hfirst : LoggedFirst (V ++ c :: R) := hV.eq_append ▸ h.first
      have hR := (pairwise_cons.mp (pairwise_append.mp hfirst).2.1).1
      obtain ⟨hbR, hbneed⟩ := mem_loggedOf.mp hb
      rcases mem_cons.mp hbR with rfl | hbR
      · rw [hneed] at hbneed
        cases hbneed
      · rw [hR b hbR hneed] at hbneed
        cases hbneed
    have hcb : c.scn.val ≤ b.scn.val := by
      obtain ⟨hbR, hbneed⟩ := mem_loggedOf.mp hb
      rcases mem_cons.mp hbR with rfl | hbR
      · exact Nat.le_refl _
      · rw [loggedOf, filter_cons_of_pos (by simp [hneed]), pairwise_cons] at hsortR
        exact hsortR.1 b (mem_loggedOf.mpr ⟨hbR, hbneed⟩)
    refine Nat.lt_of_lt_of_le ?_ hcb
    have hlogA := h.logged_of_mem (hmemV a ha.1) ha.2
    have hlogC := h.logged_of_mem hc hneed
    rcases hV.stopped c (Option.mem_some_self c) with hlast | hend
    · rcases hp.last with hnone | hcursor
      · rw [hnone] at hlast
        cases hlast
      · exact absurd (hcursor ▸ hlast) (h.logCursor_ne hc hneed)
    · rcases hp.stops _ c hc hneed hend with hgt | ⟨hne, hmarks⟩
      · obtain ⟨-, state, hgo⟩ := hV.went_on a ha.1
        exact SCN.val_lt_of_gt hlogA.valid hlogC.valid
          (hp.goes_on state a (hmemV a ha.1) ha.2 hgo) hgt
      · rcases hp.last_cases h hV hinit with ⟨hnil, -⟩ | ⟨m, hm, hmneed, hmlast, hmax⟩
        · have hamark : a ∈ V.filter p.marks :=
            mem_filter.mpr ⟨ha.1, hmarks a (hmemV a ha.1) ha.2⟩
          rw [hnil] at hamark
          cases hamark
        · have ham := hmax a ha.1 (hmarks a (hmemV a ha.1) ha.2)
          have hmc := hsortVR m (mem_loggedOf.mpr ⟨hm, hmneed⟩) c
            (mem_loggedOf.mpr ⟨mem_cons_self, hneed⟩)
          have hne' : c.scn.val ≠ m.scn.val := fun heq => hne (hmlast ▸ SCN.ext heq)
          omega

/-- What a traversal removes, it counts as removed. -/
theorem Visited.tally (hV : Visited crcByte f p l.checksumScn last l.callbacks t r V R)
    (h : Tally l) (hremoved : t.removed = l.removed) (hunlog : t.unlogRemoved = l.unlogRemoved)
    (hcount : t.removeCount = 0) {l' : ObTxCallbackList} (hcallbacks : l'.callbacks = r.1)
    (hlength : l'.length = l.length - r.2.1.removeCount) (hrem : l'.removed = r.2.1.removed)
    (hunl : l'.unlogRemoved = r.2.1.unlogRemoved) (happ : l'.appended = l.appended)
    (hlogged : l'.logged = l.logged) : Tally l' := by
  have h1 := h.length
  have h2 := h.appended
  have h3 := h.logged
  have hkept := length_eq_length_filter_add (l := V) p.removes
  have hneed : V.countP (·.needSubmitLog) =
      (V.filter (fun cb => p.removes cb && cb.needSubmitLog)).length +
        (V.filter (fun cb => !p.removes cb)).countP (·.needSubmitLog) := by
    rw [countP_eq_countP_filter_add V (·.needSubmitLog) p.removes,
      countP_eq_length_filter (l := V.filter p.removes), filter_filter]
    congr 2
    exact filter_congr fun cb _ => Bool.and_comm _ _
  rw [hV.eq_append, length_append] at h1
  rw [hV.eq_append, countP_append] at h3
  have h4 := hV.removed
  have h5 := hV.removeCount
  have h6 := hV.unlogRemoved
  refine ⟨?_, ?_, ?_⟩
  · rw [hlength, hcallbacks, hV.left, length_append]
    omega
  · rw [hlength, hrem, happ]
    omega
  · rw [hcallbacks, hV.left, countP_append, hlogged, hunl, happ]
    omega

/-- The list after a pass that moved the watermark. -/
theorem Holds.advance (h : Holds crcByte G l) (hp : Passes crcByte l f p last bound)
    (hV : Visited crcByte f p l.checksumScn last l.callbacks t r V R)
    (ht : t.batchChecksum = l.batchChecksum) {l' : ObTxCallbackList}
    (hcallbacks : l'.callbacks = r.1) (hcursor : l'.logCursor = firstUnlogged r.1)
    (hcalls : l'.batchChecksum.calls = r.2.1.batchChecksum.calls)
    (hsound : l'.batchChecksum.Sound crcByte) (hww : l.checksumScn.val ≤ l'.checksumScn.val)
    (hbelow : ∀ cb ∈ loggedOf V, cb.scn.val < l'.checksumScn.val)
    (habove : ∀ cb ∈ loggedOf R, l.checksumScn.val ≤ cb.scn.val → l'.checksumScn.val ≤ cb.scn.val)
    (hwatermark : l'.checksumScn = SCN.minScn ∨ ∃ cb ∈ G, l'.checksumScn.val = cb.scn.val + 1)
    (hsync : l'.syncScn = l.syncScn) (hchecksum : l'.checksum = 0)
    (henabled : l'.skipChecksum = false) (htally : Tally l') : Holds crcByte G l' := by
  have hmemV : ∀ cb ∈ V, cb ∈ l.callbacks := fun cb hcb => by
    rw [hV.eq_append]
    exact mem_append_left _ hcb
  have hsub : l'.callbacks.Sublist l.callbacks := by
    rw [hcallbacks, hV.left, hV.eq_append]
    exact filter_sublist.append (List.Sublist.refl R)
  -- what the pass counts are the logged callbacks from the watermark on
  have hcounts : V.filter p.counts =
      (loggedOf V).filter (fun cb => l.checksumScn.val ≤ cb.scn.val) := by
    unfold loggedOf
    rw [filter_filter]
    refine filter_congr fun cb hcb => ?_
    rw [hp.counts cb (hmemV cb hcb), Bool.and_comm]
  have hkept : loggedOf l'.callbacks =
      (loggedOf V).filter (fun cb => !p.removes cb) ++ loggedOf R := by
    rw [hcallbacks, hV.left, loggedOf_append]
    unfold loggedOf
    rw [filter_filter, filter_filter]
    congr 1
    exact filter_congr fun cb _ => Bool.and_comm _ _
  have hcounted := h.counted
  rw [hV.eq_append, loggedOf_append] at hcounted
  refine
    { good := fun cb hcb => h.good cb (hsub.subset hcb)
      first := h.first.sublist hsub
      nodup := h.nodup.sublist (hsub.map _)
      cursor := by rw [hcursor, hcallbacks]
      logged := h.logged
      counted := ?_
      below := ?_
      sound := hsound
      watermark := hwatermark
      sync := by rw [hsync]; exact h.sync
      checksum := hchecksum
      enabled := henabled
      tally := htally }
  · rw [hcalls, hV.calls, ht, map_append, map_map, hkept, hcounts]
    have hid : ((·.2) ∘ fun cb : ObITransCallback => (l.checksumScn, cb)) = id := rfl
    rw [hid, map_id]
    exact hcounted.advance filter_sublist hww hbelow habove
  · intro c hc
    rw [hcalls, hV.calls, ht, mem_append] at hc
    rcases hc with hc | hc
    · exact h.below c hc
    · obtain ⟨cb, hcb, rfl⟩ := mem_map.mp hc
      rw [hcounts, mem_filter, decide_eq_true_eq] at hcb
      obtain ⟨hmem, hneed⟩ := mem_loggedOf.mp hcb.1
      have hge := SCN.ge_eq_decide (h.logged_of_mem (hmemV cb hmem) hneed).valid
        h.checksumScn_valid
      rw [decide_eq_true hcb.2] at hge
      exact hge

theorem ensureChecksum_of_min (l : ObTxCallbackList) : l.ensureChecksum crcByte SCN.minScn = l := by
  unfold ObTxCallbackList.ensureChecksum
  by_cases hskip : l.skipChecksum
  · rw [if_pos hskip]
  · rw [if_neg hskip, if_neg (by decide), if_pos rfl]

/-- `ensure_checksum_` with the SCN of a log. -/
theorem ensureChecksum_of_logged {m : ObITransCallback} (hm : Logged m)
    (hvalid : l.checksumScn.isValid = true) (henabled : l.skipChecksum = false) :
    l.ensureChecksum crcByte m.scn =
      if m.scn.val < l.checksumScn.val then l
      else
        { l with
          batchChecksum := l.batchChecksum.calcCrc crcByte
          checksumScn := m.scn.plus 1
          tmpChecksum := if (l.batchChecksum.calcCrc crcByte).batch.base = 0 then 1
            else (l.batchChecksum.calcCrc crcByte).batch.base } := by
  have hmax : m.scn ≠ SCN.maxScn := by
    intro heq
    have := hm.lt_max
    rw [heq] at this
    exact absurd this (Nat.lt_irrefl _)
  unfold ObTxCallbackList.ensureChecksum
  rw [henabled, if_neg Bool.false_ne_true, hm.valid, if_neg (by decide), if_neg hm.ne_min]
  simp only [SCN.lt_iff hm.valid hvalid, if_neg hmax]

/-- **A pass keeps the invariant**, with the watermark that `ensure_checksum_` sets after it. -/
theorem Holds.pass (h : Holds crcByte G l) (hp : Passes crcByte l f p last bound) (state : σ)
    (hinit : p.last state = SCN.minScn) :
    ∃ l' state', l.callback crcByte f state last = (l', state', .ok ()) ∧
      Holds crcByte G (l'.ensureChecksum crcByte (p.last state')) := by
  obtain ⟨V, R, hV⟩ := callbackLoop_visited hp.follows (fun _ hcb => hcb)
    (fun _ hcb => h.ne_min hcb) last
    ⟨state, l.batchChecksum, l.logCursor, l.logEpoch, l.removed, l.unlogRemoved, 0⟩
  have hcursor := callbackLoop_logCursor crcByte f last h.first
    h.nodup (t := ⟨state, l.batchChecksum, l.logCursor, l.logEpoch, l.removed, l.unlogRemoved, 0⟩)
    h.cursor
  unfold ObTxCallbackList.callback
  generalize callbackLoop crcByte f last l.callbacks
    ⟨state, l.batchChecksum, l.logCursor, l.logEpoch, l.removed, l.unlogRemoved, 0⟩ = r
    at hV hcursor ⊢
  obtain ⟨callbacks, t, ret⟩ := r
  obtain rfl : ret = .ok () := hV.ret
  have hlast := hp.last_cases h hV hinit
  have hbetween := hp.between h hV hinit
  dsimp only at hcursor hlast
  have htally : Tally (l.traversed callbacks t) :=
    hV.tally h.tally rfl rfl rfl rfl rfl rfl rfl rfl rfl
  refine ⟨_, _, rfl, ?_⟩
  -- a logged callback that was visited and not counted is below the watermark
  have hmemV : ∀ cb ∈ V, cb ∈ l.callbacks := fun cb hcb => by
    rw [hV.eq_append]
    exact mem_append_left _ hcb
  have hmarks : ∀ cb ∈ loggedOf V, l.checksumScn.val ≤ cb.scn.val → p.marks cb = true := by
    intro cb hcb hle
    obtain ⟨hmem, hneed⟩ := mem_loggedOf.mp hcb
    refine hp.marks_of_counts cb (hmemV cb hmem) ?_
    rw [hp.counts cb (hmemV cb hmem), hneed, decide_eq_true hle]
    rfl
  rcases hlast with ⟨hnil, hmin⟩ | ⟨m, hm, hmneed, hmlast, hmax⟩
  · rw [hmin, ensureChecksum_of_min]
    refine h.advance hp hV rfl rfl hcursor rfl (hV.sound h.sound) (Nat.le_refl _) ?_
      (fun _ _ hle => hle) h.watermark rfl h.checksum h.enabled htally
    intro cb hcb
    by_contra hle
    have hmark : cb ∈ V.filter p.marks :=
      mem_filter.mpr ⟨(mem_loggedOf.mp hcb).1, hmarks cb hcb (Nat.le_of_not_lt hle)⟩
    rw [hnil] at hmark
    cases hmark
  · have hmLogged := h.logged_of_mem (hmemV m hm) hmneed
    rw [hmlast, ensureChecksum_of_logged hmLogged (by exact h.checksumScn_valid)
      (by exact h.enabled)]
    change Holds crcByte G (if m.scn.val < l.checksumScn.val then _ else _)
    by_cases hlt : m.scn.val < l.checksumScn.val
    · rw [if_pos hlt]
      refine h.advance hp hV rfl rfl hcursor rfl (hV.sound h.sound) (Nat.le_refl _) ?_
        (fun _ _ hle => hle) h.watermark rfl h.checksum h.enabled htally
      intro cb hcb
      by_contra hle
      have := hmax cb (mem_loggedOf.mp hcb).1 (hmarks cb hcb (Nat.le_of_not_lt hle))
      change ¬ cb.scn.val < l.checksumScn.val at hle
      omega
    · rw [if_neg hlt]
      obtain ⟨hplus, -⟩ := SCN.plus_one_of_lt hmLogged.lt_max
      refine h.advance hp hV rfl rfl hcursor rfl (hV.sound h.sound).calcCrc ?_ ?_ ?_ ?_ rfl
        h.checksum h.enabled ⟨htally.length, htally.appended, htally.logged⟩
      · dsimp only
        omega
      · intro cb hcb
        dsimp only
        rw [hplus]
        by_cases hle : l.checksumScn.val ≤ cb.scn.val
        · have := hmax cb (mem_loggedOf.mp hcb).1 (hmarks cb hcb hle)
          omega
        · omega
      · intro cb hcb _
        have := hbetween m (mem_loggedOf.mpr ⟨hm, hmneed⟩) cb hcb
        dsimp only
        omega
      · refine Or.inr ⟨m, h.counted.kept.subset (mem_loggedOf.mpr ⟨hmemV m hm, hmneed⟩), ?_⟩
        exact hplus

end

/-! ### The passes of the list -/

section

variable {G : List ObITransCallback} {l : ObTxCallbackList}

/-- The logged callbacks from the watermark on. -/
def ObTxCallbackList.waiting (l : ObTxCallbackList) (cb : ObITransCallback) : Bool :=
  !cb.needSubmitLog && decide (l.checksumScn.val ≤ cb.scn.val)

/-- The condition under which the functors count a logged callback. -/
theorem Holds.ge_checksumScn (h : Holds crcByte G l) {cb : ObITransCallback}
    (hcb : cb ∈ l.callbacks) (hneed : cb.needSubmitLog = false) :
    (!l.skipChecksum && SCN.ge cb.scn l.checksumScn) = l.waiting cb := by
  rw [h.enabled, SCN.ge_eq_decide (h.logged_of_mem hcb hneed).valid h.checksumScn_valid,
    ObTxCallbackList.waiting, hneed]

theorem ObTxCallbackList.not_need_of_waiting {cb : ObITransCallback} (h : l.waiting cb = true) :
    cb.needSubmitLog = false := by
  rw [waiting, Bool.and_eq_true, Bool.not_eq_true'] at h
  exact h.1

/-- Fast commit removes everything it visits. -/
theorem Holds.passes_fastCommit (h : Holds crcByte G l) (rightBound : SCN) :
    Passes crcByte l
      (ObRemoveCallbacksForFastCommitFunctor crcByte rightBound l.checksumScn (!l.skipChecksum))
      ⟨l.waiting, fun _ => true, fun cb => !cb.needSubmitLog, FastCommitState.lastScnForRemove⟩
      l.logCursor rightBound where
  follows := by
    intro state c cb hcb hgo
    have hneed : cb.needSubmitLog = false := by
      cases hneed : cb.needSubmitLog with
      | false => rfl
      | true => simp [ObRemoveCallbacksForFastCommitFunctor, hneed] at hgo
    refine ⟨⟨state.needRemoveCount - 1, cb.scn⟩, ?_, by simp [hneed]⟩
    have hcount := h.ge_checksumScn hcb hneed
    simp only [ObRemoveCallbacksForFastCommitFunctor, ObITransCallback.checkpointCallback, hneed,
      hcount, Bool.false_eq_true, if_false]
  counts := fun _ _ => rfl
  marks_of_counts := fun cb _ hw => by
    simp [ObTxCallbackList.not_need_of_waiting hw]
  logged_of_marks := fun cb _ hm => by simpa using hm
  last := Or.inr rfl
  goes_on := by
    intro state cb hcb hneed hgo
    cases hgt : SCN.gt cb.scn rightBound with
    | false => rfl
    | true =>
      rw [SCN.gt] at hgt
      simp [ObRemoveCallbacksForFastCommitFunctor, hneed, hgt] at hgo
  stops := by
    intro state cb hcb hneed hend
    cases hgt : SCN.gt cb.scn rightBound with
    | true => exact Or.inl rfl
    | false =>
      rw [SCN.gt] at hgt
      simp only [ObRemoveCallbacksForFastCommitFunctor, hneed, hgt, Bool.false_eq_true, if_false,
        h.ne_min hcb, Bool.and_eq_true, decide_eq_true_eq] at hend
      exact Or.inr ⟨hend.2, fun c _ hc => by simp [hc]⟩

/-- The removal for a memtable counts what it visits and removes some of it. -/
theorem Holds.passes_removeMemtable (h : Holds crcByte G l)
    (condForRemove : ObITransCallback → Bool) (stopScn : SCN) :
    Passes crcByte l
      (ObRemoveSyncCallbacksWCondFunctor crcByte condForRemove (fun cb => SCN.gt cb.scn stopScn)
        l.checksumScn (!l.skipChecksum))
      ⟨l.waiting, condForRemove, l.waiting, id⟩ none stopScn where
  follows := by
    intro state c cb hcb hgo
    have hneed : cb.needSubmitLog = false := by
      cases hneed : cb.needSubmitLog with
      | false => rfl
      | true => simp [ObRemoveSyncCallbacksWCondFunctor, hneed] at hgo
    have hcount := h.ge_checksumScn hcb hneed
    refine ⟨if l.waiting cb then cb.scn else state, ?_, rfl⟩
    simp only [ObRemoveSyncCallbacksWCondFunctor, ObITransCallback.checkpointCallback, hneed,
      hcount, Bool.false_eq_true, if_false]
    cases condForRemove cb <;> rfl
  counts := fun _ _ => rfl
  marks_of_counts := fun _ _ hw => hw
  logged_of_marks := fun _ _ hm => ObTxCallbackList.not_need_of_waiting hm
  last := Or.inl rfl
  goes_on := by
    intro state cb hcb hneed hgo
    cases hgt : SCN.gt cb.scn stopScn with
    | false => rfl
    | true => simp [ObRemoveSyncCallbacksWCondFunctor, hneed, hgt] at hgo
  stops := by
    intro state cb hcb hneed hend
    have hmax : cb.scn ≠ SCN.maxScn := by
      intro heq
      have := (h.logged_of_mem hcb hneed).lt_max
      rw [heq] at this
      exact absurd this (Nat.lt_irrefl _)
    left
    simpa [ObRemoveSyncCallbacksWCondFunctor, hneed, hmax] using hend

/-- The rollback visits the callbacks that are not logged too. -/
theorem Holds.passes_rollback (h : Holds crcByte G l)
    {condForRemove : ObITransCallback → ObResult Bool} {removes : ObITransCallback → Bool}
    (hcond : ∀ cb ∈ l.callbacks, condForRemove cb = .ok (removes cb)) (rightBound : SCN) :
    Passes crcByte l
      (ObRemoveCallbacksWCondFunctor crcByte condForRemove rightBound l.checksumScn
        (!l.skipChecksum))
      ⟨l.waiting, removes, fun cb => !cb.needSubmitLog, id⟩ none rightBound where
  follows := by
    intro state c cb hcb _
    cases hneed : cb.needSubmitLog with
    | true =>
      refine ⟨state, ?_, by simp [hneed]⟩
      simp [ObRemoveCallbacksWCondFunctor, hcond cb hcb, hneed, ObTxCallbackList.waiting]
    | false =>
      have hcount := h.ge_checksumScn hcb hneed
      refine ⟨cb.scn, ?_, by simp [hneed]⟩
      simp only [ObRemoveCallbacksWCondFunctor, hcond cb hcb, hneed, hcount, Bool.false_eq_true,
        if_false]
      rw [h.enabled]
      rfl
  counts := fun _ _ => rfl
  marks_of_counts := fun cb _ hw => by
    simp [ObTxCallbackList.not_need_of_waiting hw]
  logged_of_marks := fun cb _ hm => by simpa using hm
  last := Or.inl rfl
  goes_on := fun _ _ _ _ hgo => hgo
  stops := fun _ _ _ _ hend => Or.inl hend

/-- The calculation of the checksum removes nothing. -/
theorem Holds.passes_calcChecksum (h : Holds crcByte G l) {targetScn : SCN}
    (htarget : ∀ cb ∈ l.callbacks, SCN.gt cb.scn targetScn = false → cb.needSubmitLog = false) :
    Passes crcByte l (ObCalcChecksumFunctor crcByte targetScn l.checksumScn)
      ⟨l.waiting, fun _ => false, fun cb => !cb.needSubmitLog, id⟩ none targetScn where
  follows := by
    intro state c cb hcb hgo
    have hneed := htarget cb hcb hgo
    have hcount := h.ge_checksumScn hcb hneed
    rw [h.enabled, Bool.not_false, Bool.true_and] at hcount
    change SCN.gt cb.scn targetScn = false at hgo
    refine ⟨cb.scn, ?_, by simp [hneed]⟩
    simp only [ObCalcChecksumFunctor, hgo, hcount, Bool.false_eq_true, if_false]
  counts := fun _ _ => rfl
  marks_of_counts := fun cb _ hw => by
    simp [ObTxCallbackList.not_need_of_waiting hw]
  logged_of_marks := fun cb _ hm => by simpa using hm
  last := Or.inl rfl
  goes_on := fun _ _ _ _ hgo => hgo
  stops := fun _ _ _ _ hend => Or.inl hend

end

/-! ### The operations keep the invariant -/

section

variable {G : List ObITransCallback} {l : ObTxCallbackList}

theorem Holds.removeCallbacksForFastCommit (h : Holds crcByte G l) (n : ℤ) (stopScn : SCN) :
    (l.removeCallbacksForFastCommit crcByte n stopScn).2 = .ok () ∧
      Holds crcByte G (l.removeCallbacksForFastCommit crcByte n stopScn).1 := by
  unfold ObTxCallbackList.removeCallbacksForFastCommit
  dsimp only
  obtain ⟨l', state, heq, hl'⟩ := h.pass (h.passes_fastCommit _)
    ⟨l.calcNeedRemoveCountForFastCommit n, SCN.minScn⟩ rfl
  rw [heq]
  exact ⟨rfl, hl'⟩

theorem Holds.removeCallbacksForRemoveMemtable (h : Holds crcByte G l) (memtableSet : List ℕ)
    (stopScn : SCN) :
    (l.removeCallbacksForRemoveMemtable crcByte memtableSet stopScn).2 = .ok () ∧
      Holds crcByte G (l.removeCallbacksForRemoveMemtable crcByte memtableSet stopScn).1 := by
  unfold ObTxCallbackList.removeCallbacksForRemoveMemtable
  obtain ⟨l', last, heq, hl'⟩ := h.pass
    (h.passes_removeMemtable (fun cb => cb.memtable ∈ memtableSet) stopScn)
    SCN.minScn rfl
  rw [heq]
  dsimp only
  rw [h.enabled, if_neg Bool.false_ne_true]
  exact ⟨rfl, hl'⟩

/-- The invariant does not read `branch_removed_`. -/
theorem Holds.with_branchRemoved (h : Holds crcByte G l) (n : ℤ) :
    Holds crcByte G { l with branchRemoved := n } :=
  ⟨h.good, h.first, h.nodup, h.cursor, h.logged, h.counted, h.below, h.sound, h.watermark, h.sync,
    h.checksum, h.enabled, ⟨h.tally.length, h.tally.appended, h.tally.logged⟩⟩

theorem ensureChecksum_branchRemoved (l : ObTxCallbackList) (scn : SCN) (n : ℤ) :
    ({ l with branchRemoved := n }).ensureChecksum crcByte scn =
      { l.ensureChecksum crcByte scn with branchRemoved := n } := by
  unfold ObTxCallbackList.ensureChecksum
  dsimp only
  split_ifs <;> rfl

variable {cb : ObITransCallback} {scn : SCN}

theorem condForRollback_of_lt {toSeq fromSeq : ObTxSEQ}
    (h : toSeq.getBranch = 0 ∨ toSeq.getBranch = cb.seqNo.getBranch →
      cb.seqNo.getSeq < fromSeq.getSeq) :
    ObTxCallbackList.condForRollback toSeq fromSeq cb =
      .ok ((toSeq.getBranch = 0 ∨ toSeq.getBranch = cb.seqNo.getBranch) ∧
        cb.seqNo.getSeq > toSeq.getSeq : Bool) := by
  unfold ObTxCallbackList.condForRollback
  by_cases hbranch : toSeq.getBranch = 0 ∨ toSeq.getBranch = cb.seqNo.getBranch
  · rw [if_pos hbranch, if_neg (Nat.not_le.mpr (h hbranch))]
    simp [hbranch]
  · rw [if_neg hbranch]
    simp [hbranch]

theorem Holds.removeCallbacksForRollbackTo (h : Holds crcByte G l) {toSeq fromSeq : ObTxSEQ}
    (hfrom : ∀ cb ∈ l.callbacks, toSeq.getBranch = 0 ∨ toSeq.getBranch = cb.seqNo.getBranch →
      cb.seqNo.getSeq < fromSeq.getSeq) (replayScn : SCN) :
    (l.removeCallbacksForRollbackTo crcByte toSeq fromSeq replayScn).2 = .ok () ∧
      Holds crcByte G (l.removeCallbacksForRollbackTo crcByte toSeq fromSeq replayScn).1 := by
  unfold ObTxCallbackList.removeCallbacksForRollbackTo
  dsimp only
  obtain ⟨l', last, heq, hl'⟩ := h.pass
    (h.passes_rollback (fun cb hcb => condForRollback_of_lt (hfrom cb hcb))
      (if replayScn.isValid then replayScn else SCN.maxScn))
    SCN.minScn rfl
  rw [heq]
  dsimp only
  rw [h.enabled, if_neg Bool.false_ne_true]
  refine ⟨rfl, ?_⟩
  split_ifs
  · rw [ensureChecksum_branchRemoved]
    exact hl'.with_branchRemoved _
  · exact hl'

theorem Holds.txCalcChecksumBeforeScn (h : Holds crcByte G l) (scn : SCN) :
    (l.txCalcChecksumBeforeScn crcByte scn).2 = .ok () ∧
      Holds crcByte G (l.txCalcChecksumBeforeScn crcByte scn).1 := by
  unfold ObTxCallbackList.txCalcChecksumBeforeScn
  dsimp only
  -- the traversal ends before the callbacks that are not logged, whose SCN is the largest
  have htarget : ∀ cb ∈ l.callbacks,
      SCN.gt cb.scn (if scn = SCN.maxScn then l.syncScn else scn) = false →
      cb.needSubmitLog = false := by
    intro cb hcb hgt
    rcases h.good cb hcb with hlogged | hunlogged
    · exact hlogged.need
    · have hne : (if scn = SCN.maxScn then l.syncScn else scn) ≠ SCN.maxScn := by
        split_ifs with hmax
        · exact fun heq => absurd (heq ▸ h.sync) (Nat.lt_irrefl _)
        · exact hmax
      rw [hunlogged.scn, SCN.gt_maxScn hne] at hgt
      cases hgt
  obtain ⟨l', last, heq, hl'⟩ := h.pass (h.passes_calcChecksum htarget) SCN.minScn rfl
  rw [heq]
  exact ⟨rfl, hl'⟩

theorem Holds.syncLogSucc (h : Holds crcByte G l) (hscn : scn.val < SCN.obMaxScnTsNs) (cnt : ℕ) :
    Holds crcByte G (l.syncLogSucc scn cnt) :=
  ⟨h.good, h.first, h.nodup, h.cursor, h.logged, h.counted, h.below, h.sound, h.watermark, hscn,
    h.checksum, h.enabled, ⟨h.tally.length, h.tally.appended, h.tally.logged⟩⟩

theorem firstUnlogged_append (l l' : List ObITransCallback) :
    firstUnlogged (l ++ l') = (firstUnlogged l).or (firstUnlogged l') := by
  unfold firstUnlogged
  rw [find?_append]
  cases l.find? (·.needSubmitLog) <;> rfl

theorem loggedOf_eq_nil {l : List ObITransCallback} (h : ∀ cb ∈ l, Unlogged cb) :
    loggedOf l = [] := by
  unfold loggedOf
  rw [filter_eq_nil_iff]
  intro cb hcb
  simp [(h cb hcb).need]

theorem callbacks_appendCallback (l : ObTxCallbackList) {chain : List ObITransCallback}
    (hne : chain ≠ []) :
    (l.appendCallback chain).1.callbacks = l.callbacks ++ chain.map (·.beforeAppendCb) := by
  obtain ⟨head, rest, rfl⟩ := exists_cons_of_ne_nil hne
  unfold ObTxCallbackList.appendCallback
  rw [map_cons]
  dsimp only
  split_ifs <;> rfl

/-- New callbacks come after the others, and are not logged. -/
theorem Holds.appendCallback (h : Holds crcByte G l) {chain : List ObITransCallback}
    (hne : chain ≠ []) (hnew : ∀ cb ∈ chain, cb.scn = SCN.maxScn)
    (hnodup : ((l.callbacks ++ chain).map (·.addr)).Nodup) :
    (l.appendCallback chain).2 = .ok () ∧ Holds crcByte G (l.appendCallback chain).1 := by
  have hunlogged : ∀ cb ∈ chain.map (·.beforeAppendCb), Unlogged cb := by
    intro cb hcb
    obtain ⟨c, hc, rfl⟩ := mem_map.mp hcb
    exact ⟨rfl, hnew c hc⟩
  have haddr : (chain.map (·.beforeAppendCb)).map (·.addr) = chain.map (·.addr) := by
    rw [map_map]
    rfl
  have hne' : chain.map (·.beforeAppendCb) ≠ [] := by simpa using hne
  rw [map_append, ← haddr, ← map_append] at hnodup
  unfold ObTxCallbackList.appendCallback
  generalize happended : chain.map (·.beforeAppendCb) = appended at hunlogged hnodup hne' ⊢
  obtain ⟨head, rest, rfl⟩ := exists_cons_of_ne_nil hne'
  have hfirst : LoggedFirst (l.callbacks ++ head :: rest) := by
    refine pairwise_append.mpr ⟨h.first, ?_, fun _ _ b hb _ => (hunlogged b hb).need⟩
    exact pairwise_of_forall_mem_list fun _ _ b hb _ => (hunlogged b hb).need
  have hcursor : firstUnlogged (l.callbacks ++ head :: rest) =
      l.logCursor.or (some head.addr) := by
    rw [firstUnlogged_append, ← h.cursor,
      firstUnlogged_cons_of_unlogged (hunlogged head mem_cons_self).need]
  have hcounted := h.counted
  rw [← append_nil (loggedOf l.callbacks), ← loggedOf_eq_nil hunlogged, ← loggedOf_append]
    at hcounted
  have hgood : ∀ cb ∈ l.callbacks ++ head :: rest, Logged cb ∨ Unlogged cb := by
    intro cb hcb
    rcases mem_append.mp hcb with hcb | hcb
    · exact h.good cb hcb
    · exact Or.inr (hunlogged cb hcb)
  have hlength : chain.length = (head :: rest).length := by rw [← happended, length_map]
  have htally : Tally { l with
      callbacks := l.callbacks ++ head :: rest
      appended := l.appended + chain.length
      length := l.length + chain.length } := by
    have hcount : (head :: rest).countP (·.needSubmitLog) = (head :: rest).length :=
      countP_eq_length.mpr fun cb hcb => (hunlogged cb hcb).need
    have h1 := h.tally.length
    have h2 := h.tally.appended
    have h3 := h.tally.logged
    refine ⟨?_, ?_, ?_⟩ <;> dsimp only
    · rw [length_append]
      omega
    · omega
    · rw [countP_append, hcount]
      omega
  refine ⟨rfl, ?_⟩
  cases hc : l.logCursor with
  | none =>
    rw [hc, Option.none_or] at hcursor
    exact ⟨hgood, hfirst, hnodup, hcursor.symm, h.logged, hcounted, h.below, h.sound, h.watermark,
      h.sync, h.checksum, h.enabled, ⟨htally.length, htally.appended, htally.logged⟩⟩
  | some a =>
    rw [hc, Option.some_or] at hcursor
    exact ⟨hgood, hfirst, hnodup, hcursor.symm, h.logged, hcounted, h.below, h.sound, h.watermark,
      h.sync, h.checksum, h.enabled, ⟨htally.length, htally.appended, htally.logged⟩⟩

theorem LoggedFirst.eq_append {l : List ObITransCallback} (h : LoggedFirst l) :
    l = loggedOf l ++ l.filter (·.needSubmitLog) := by
  induction l with
  | nil => rfl
  | cons cb l ih =>
    rw [LoggedFirst, pairwise_cons] at h
    cases hneed : cb.needSubmitLog with
    | false =>
      rw [loggedOf, filter_cons_of_pos (by simp [hneed]),
        filter_cons_of_neg (by simp [hneed]), cons_append]
      exact congrArg (cb :: ·) (ih h.2)
    | true =>
      have hnil : loggedOf l = [] := by
        unfold loggedOf
        rw [filter_eq_nil_iff]
        intro c hc
        simp [h.1 c hc hneed]
      have hall : l.filter (·.needSubmitLog) = l :=
        filter_eq_self.mpr fun c hc => h.1 c hc hneed
      rw [loggedOf, filter_cons_of_neg (by simp [hneed]), filter_cons_of_pos hneed, hall]
      change _ = loggedOf l ++ _
      rw [hnil, nil_append]

/-- The log cursor separates the logged callbacks from the others. -/
theorem Holds.split_logCursor (h : Holds crcByte G l) :
    l.beforeLogCursor = loggedOf l.callbacks ∧
      l.fromLogCursor = l.callbacks.filter (·.needSubmitLog) := by
  have hall : ∀ cb ∈ loggedOf l.callbacks, decide (l.logCursor ≠ some cb.addr) = true := by
    intro cb hcb
    obtain ⟨hmem, hneed⟩ := mem_loggedOf.mp hcb
    exact decide_eq_true (h.logCursor_ne hmem hneed)
  have hnone : firstUnlogged (loggedOf l.callbacks) = none := by
    unfold firstUnlogged
    rw [Option.map_eq_none_iff, find?_eq_none]
    intro cb hcb
    simp [(mem_loggedOf.mp hcb).2]
  have hunlogged : ∀ cb ∈ l.callbacks.filter (·.needSubmitLog), cb.needSubmitLog = true :=
    fun cb hcb => (mem_filter.mp hcb).2
  have hcursor := h.cursor
  have heq := h.first.eq_append
  unfold ObTxCallbackList.beforeLogCursor ObTxCallbackList.fromLogCursor
  generalize loggedOf l.callbacks = L at *
  generalize l.callbacks.filter (·.needSubmitLog) = U at *
  rw [heq] at hcursor ⊢
  rw [firstUnlogged_append, hnone, Option.none_or] at hcursor
  rw [takeWhile_append_of_pos hall, dropWhile_append_of_pos hall]
  cases U with
  | nil => exact ⟨append_nil L, rfl⟩
  | cons u U =>
    rw [firstUnlogged_cons_of_unlogged (hunlogged u mem_cons_self)] at hcursor
    rw [takeWhile_cons_of_neg (by simp [hcursor]),
      dropWhile_cons_of_neg (by simp [hcursor])]
    exact ⟨append_nil L, rfl⟩

/-- The callbacks that a log of `cnt` callbacks covers, once it is submitted. -/
def ObTxCallbackList.submitted (l : ObTxCallbackList) (cnt : ℕ) (scn : SCN) :
    List ObITransCallback :=
  (l.fromLogCursor.take cnt).map (·.logSubmittedCb scn)

theorem addr_submitted (l : ObTxCallbackList) (cnt : ℕ) (scn : SCN) :
    (l.submitted cnt scn).map (·.addr) = (l.fromLogCursor.take cnt).map (·.addr) := by
  unfold ObTxCallbackList.submitted
  rw [map_map]
  refine map_congr_left fun cb _ => ?_
  rw [Function.comp_apply, ObITransCallback.logSubmittedCb]
  split_ifs <;> rfl

theorem Holds.unlogged_of_mem (h : Holds crcByte G l) (hcb : cb ∈ l.fromLogCursor) :
    Unlogged cb := by
  rw [h.split_logCursor.2] at hcb
  obtain ⟨hmem, hneed⟩ := mem_filter.mp hcb
  rcases h.good cb hmem with hlogged | hunlogged
  · rw [hlogged.need] at hneed
    cases hneed
  · exact hunlogged

theorem Holds.mem_submitted (h : Holds crcByte G l) {cnt : ℕ} (hpos : 0 < scn.val)
    (hmax : scn.val < SCN.obMaxScnTsNs) (hcb : cb ∈ l.submitted cnt scn) :
    Logged cb ∧ cb.scn = scn := by
  obtain ⟨c, hc, rfl⟩ := mem_map.mp hcb
  have hc := h.unlogged_of_mem (mem_of_mem_take hc)
  have hset : (c.logSubmittedCb scn).scn = scn := by
    rw [ObITransCallback.logSubmittedCb, if_pos hc.need]
    exact if_pos hc.scn
  have hneed : (c.logSubmittedCb scn).needSubmitLog = false := by
    rw [ObITransCallback.logSubmittedCb, if_pos hc.need]
  exact ⟨⟨hneed, by rwa [hset], by rwa [hset]⟩, hset⟩

theorem Holds.callbacks_logSubmitted (h : Holds crcByte G l) (cnt : ℕ) (scn : SCN) :
    (l.logSubmitted cnt scn).callbacks =
      loggedOf l.callbacks ++ l.submitted cnt scn ++ l.fromLogCursor.drop cnt := by
  rw [← h.split_logCursor.1]
  rfl

section

variable (h : Holds crcByte G l) (cnt : ℕ)
include h

theorem Holds.addr_logSubmitted (scn : SCN) :
    (l.logSubmitted cnt scn).callbacks.map (·.addr) = l.callbacks.map (·.addr) := by
  obtain ⟨hbefore, hfrom⟩ := h.split_logCursor
  have heq := h.first.eq_append
  rw [← hbefore, ← hfrom] at heq
  rw [h.callbacks_logSubmitted, ← hbefore, map_append, map_append, addr_submitted, append_assoc,
    ← map_append, take_append_drop, ← map_append, ← heq]

theorem Holds.unlogged_rest : ∀ cb ∈ l.fromLogCursor.drop cnt, Unlogged cb :=
  fun _ hcb => h.unlogged_of_mem (mem_of_mem_drop hcb)

variable (hpos : 0 < scn.val) (hmax : scn.val < SCN.obMaxScnTsNs)
include hpos hmax

theorem Holds.logged_submitted : ∀ cb ∈ loggedOf l.callbacks ++ l.submitted cnt scn, Logged cb := by
  intro cb hcb
  rcases mem_append.mp hcb with hcb | hcb
  · exact h.logged_of_mem (mem_loggedOf.mp hcb).1 (mem_loggedOf.mp hcb).2
  · exact (h.mem_submitted hpos hmax hcb).1

/-- The logged callbacks come first, before those that the log does not cover. -/
theorem Holds.filter_logSubmitted :
    loggedOf (l.logSubmitted cnt scn).callbacks = loggedOf l.callbacks ++ l.submitted cnt scn ∧
      (l.logSubmitted cnt scn).callbacks.filter (·.needSubmitLog) = l.fromLogCursor.drop cnt := by
  have hlogged := h.logged_submitted cnt hpos hmax
  have hrest := h.unlogged_rest cnt
  rw [h.callbacks_logSubmitted]
  constructor
  · rw [loggedOf_append, loggedOf_eq_nil hrest, append_nil]
    exact filter_eq_self.mpr fun cb hcb => by simp [(hlogged cb hcb).need]
  · rw [filter_append, filter_eq_nil_iff.mpr fun cb hcb => by simp [(hlogged cb hcb).need],
      nil_append]
    exact filter_eq_self.mpr fun cb hcb => (hrest cb hcb).need

theorem Holds.first_logSubmitted : LoggedFirst (l.logSubmitted cnt scn).callbacks ∧
    (l.logSubmitted cnt scn).logCursor = firstUnlogged (l.logSubmitted cnt scn).callbacks := by
  have hlogged := h.logged_submitted cnt hpos hmax
  have hrest := h.unlogged_rest cnt
  have hnone : firstUnlogged (loggedOf l.callbacks ++ l.submitted cnt scn) = none := by
    unfold firstUnlogged
    rw [Option.map_eq_none_iff, find?_eq_none]
    intro cb hcb
    simp [(hlogged cb hcb).need]
  rw [h.callbacks_logSubmitted]
  constructor
  · refine pairwise_append.mpr ⟨?_, ?_, fun _ _ b hb _ => (hrest b hb).need⟩
    · refine pairwise_of_forall_mem_list fun a ha _ _ hneed => ?_
      rw [(hlogged a ha).need] at hneed
      cases hneed
    · exact pairwise_of_forall_mem_list fun _ _ b hb _ => (hrest b hb).need
  · rw [firstUnlogged_append, hnone, Option.none_or,
      firstUnlogged_eq_head fun cb hcb => (hrest cb hcb).need]
    rfl

theorem Holds.tally_logSubmitted (hcnt : cnt ≤ l.fromLogCursor.length) :
    Tally (l.logSubmitted cnt scn) := by
  have hlength : (l.logSubmitted cnt scn).callbacks.length = l.callbacks.length := by
    rw [← length_map (f := (·.addr)), h.addr_logSubmitted, length_map]
  have hlogged := h.tally.logged
  rw [countP_eq_length_filter, ← h.split_logCursor.2] at hlogged
  refine ⟨?_, h.tally.appended, ?_⟩
  · rw [hlength]
    exact h.tally.length
  · rw [countP_eq_length_filter, (h.filter_logSubmitted cnt hpos hmax).2, length_drop]
    change l.logged + cnt + l.unlogRemoved + _ = l.appended
    omega

variable (hlater : ∀ cb ∈ G, cb.scn.val < scn.val)
include hlater

theorem Holds.counted_logSubmitted :
    Watermark.Counted (·.scn.val) (G ++ l.submitted cnt scn)
      (loggedOf (l.logSubmitted cnt scn).callbacks) (l.batchChecksum.calls.map (·.2))
      l.checksumScn.val := by
  have hscn (cb) (hcb : cb ∈ l.submitted cnt scn) := (h.mem_submitted hpos hmax hcb).2
  rw [(h.filter_logSubmitted cnt hpos hmax).1]
  refine h.counted.grow ?_ ?_ ?_
  · refine pairwise_of_forall_mem_list fun a ha b hb => ?_
    rw [hscn a ha, hscn b hb]
  · intro a ha b hb
    rw [hscn b hb]
    exact Nat.le_of_lt (hlater a ha)
  · intro cb hcb
    rw [hscn cb hcb]
    rcases h.watermark with hw | ⟨c, hc, hw⟩
    · rw [hw]
      exact Nat.zero_le _
    · rw [hw]
      exact hlater c hc

/-- A log with a larger SCN extends the history. -/
theorem Holds.logSubmitted (hcnt : cnt ≤ l.fromLogCursor.length) :
    Holds crcByte (G ++ l.submitted cnt scn) (l.logSubmitted cnt scn) where
  good cb hcb := by
    rw [h.callbacks_logSubmitted] at hcb
    rcases mem_append.mp hcb with hcb | hcb
    · exact Or.inl (h.logged_submitted cnt hpos hmax cb hcb)
    · exact Or.inr (h.unlogged_rest cnt cb hcb)
  first := (h.first_logSubmitted cnt hpos hmax).1
  nodup := by rw [h.addr_logSubmitted]; exact h.nodup
  cursor := (h.first_logSubmitted cnt hpos hmax).2
  logged cb hcb := by
    rcases mem_append.mp hcb with hcb | hcb
    · exact h.logged cb hcb
    · exact (h.mem_submitted hpos hmax hcb).1
  counted := h.counted_logSubmitted cnt hpos hmax hlater
  below := h.below
  sound := h.sound
  watermark := h.watermark.imp id fun ⟨c, hc, hw⟩ => ⟨c, mem_append_left _ hc, hw⟩
  sync := h.sync
  checksum := h.checksum
  enabled := h.enabled
  tally := h.tally_logSubmitted cnt hpos hmax hcnt

end

end

/-! ### The whole checksum -/

/-- The bytes of a callback that the checksum is over. -/
def ObITransCallback.checksumBytes (cb : ObITransCallback) : List UInt8 :=
  (cb.checksumData.getD []).flatten

/-- The checksum of a transaction that logged `G`, as the traversal at its end computes it if
nothing was dropped before. -/
def checksumOf (crcByte : UInt64 → UInt8 → UInt64) (G : List ObITransCallback) : UInt64 :=
  if obCrc64 crcByte 0 (G.flatMap (·.checksumBytes)) = 0 then 1
  else obCrc64 crcByte 0 (G.flatMap (·.checksumBytes))

section

variable {G : List ObITransCallback} {l : ObTxCallbackList}

theorem ensureChecksum_max (henabled : l.skipChecksum = false)
    (hvalid : l.checksumScn.isValid = true) :
    l.ensureChecksum crcByte SCN.maxScn =
      { l with
        batchChecksum := l.batchChecksum.calcCrc crcByte
        checksumScn := SCN.maxScn
        checksum := if l.batchChecksum.batch.value crcByte = 0 then 1
          else l.batchChecksum.batch.value crcByte } := by
  have hlt : ¬ SCN.lt SCN.maxScn l.checksumScn = true := by
    rw [SCN.lt_iff (by decide) hvalid, Nat.not_lt]
    exact (SCN.isValid_iff _).mp hvalid
  have hbase : (l.batchChecksum.calcCrc crcByte).batch.base = l.batchChecksum.batch.value crcByte :=
    ObBatchChecksum.base_calcCrc crcByte _
  unfold ObTxCallbackList.ensureChecksum
  rw [henabled, if_neg Bool.false_ne_true, if_neg (by decide), if_neg (by decide), if_neg hlt]
  dsimp only
  rw [if_pos rfl, hbase]

/-- **The last traversal** completes the count. -/
theorem Holds.txCalcChecksumAll (h : Holds crcByte G l)
    (hall : ∀ cb ∈ l.callbacks, cb.needSubmitLog = false) :
    ∃ l', l.txCalcChecksumAll crcByte = (l', .ok ()) ∧
      l'.batchChecksum.calls.map (·.2) = G ∧
      (∀ c ∈ l'.batchChecksum.calls, SCN.le c.1 c.2.scn = true) ∧
      l'.checksum = checksumOf crcByte G := by
  have hp : Passes crcByte l (ObCalcChecksumFunctor crcByte SCN.maxScn l.checksumScn) _ none
      SCN.maxScn := h.passes_calcChecksum fun cb hcb _ => hall cb hcb
  obtain ⟨V, R, hV⟩ := callbackLoop_visited hp.follows (fun _ hcb => hcb)
    (fun _ hcb => h.ne_min hcb) none
    ⟨SCN.minScn, l.batchChecksum, l.logCursor, l.logEpoch, l.removed, l.unlogRemoved, 0⟩
  -- no callback stops the traversal
  have hR : R = [] := by
    cases R with
    | nil => rfl
    | cons cb R =>
      have hcb : cb ∈ l.callbacks := by
        rw [hV.eq_append]
        exact mem_append_right V mem_cons_self
      have hlogged := h.logged_of_mem hcb (hall cb hcb)
      rcases hV.stopped cb (Option.mem_some_self cb) with hlast | hend
      · cases hlast
      · change SCN.gt cb.scn SCN.maxScn = true at hend
        rw [SCN.gt, SCN.lt_iff (by decide) hlogged.valid] at hend
        exact absurd hlogged.lt_max (Nat.not_lt.mpr (Nat.le_of_lt hend))
  have hVall : V = l.callbacks := by rw [hV.eq_append, hR, append_nil]
  have hwaiting : V.filter l.waiting =
      (loggedOf l.callbacks).filter (fun cb => l.checksumScn.val ≤ cb.scn.val) := by
    unfold loggedOf
    rw [filter_filter, hVall]
    exact filter_congr fun cb _ => Bool.and_comm _ _
  have hcalls := hV.calls
  have hsound := hV.sound h.sound
  have hret := hV.ret
  have hskip : ¬ (l.checksumScn = SCN.maxScn ∧ l.checksum ≠ 0) := fun hc => hc.2 h.checksum
  unfold ObTxCallbackList.txCalcChecksumAll ObTxCallbackList.callback
  rw [if_neg hskip]
  generalize callbackLoop crcByte _ none l.callbacks
    ⟨SCN.minScn, l.batchChecksum, l.logCursor, l.logEpoch, l.removed, l.unlogRemoved, 0⟩ = r
    at hcalls hsound hret ⊢
  obtain ⟨callbacks, t, ret⟩ := r
  obtain rfl : ret = .ok () := hret
  dsimp only at hcalls hsound ⊢
  have hhistory : t.batchChecksum.calls.map (·.2) = G := by
    have hid : ((·.2) ∘ fun cb : ObITransCallback => (l.checksumScn, cb)) = id := rfl
    rw [hcalls, map_append, map_map, hid, map_id, hwaiting]
    exact h.counted.finish
  have hbelow : ∀ c ∈ t.batchChecksum.calls, SCN.le c.1 c.2.scn = true := by
    intro c hc
    rw [hcalls, mem_append] at hc
    rcases hc with hc | hc
    · exact h.below c hc
    · obtain ⟨cb, hcb, rfl⟩ := mem_map.mp hc
      rw [hwaiting, mem_filter, decide_eq_true_eq] at hcb
      obtain ⟨hmem, hneed⟩ := mem_loggedOf.mp hcb.1
      have hge := SCN.ge_eq_decide (h.logged_of_mem hmem hneed).valid h.checksumScn_valid
      rw [decide_eq_true hcb.2] at hge
      exact hge
  have hbytes : t.batchChecksum.calls.flatMap callBytes = G.flatMap (·.checksumBytes) := by
    rw [← hhistory, flatMap_map]
    refine flatMap_congr fun c hc => ?_
    rw [callBytes, if_pos (hbelow c hc)]
    rfl
  refine ⟨_, rfl, ?_⟩
  rw [ensureChecksum_max (by exact h.enabled) (by exact h.checksumScn_valid)]
  refine ⟨hhistory, hbelow, ?_⟩
  have hvalue : (l.traversed callbacks t).batchChecksum.batch.value crcByte =
      obCrc64 crcByte 0 (G.flatMap (·.checksumBytes)) := by
    rw [← hbytes]
    exact hsound
  dsimp only
  rw [hvalue]
  rfl

end

/-! ### The callbacks that are left -/

theorem callbackLoop_sublist (f : ObITxCallbackFunctor σ) (last : Option ℕ)
    (l : List ObITransCallback) (t : Traversal σ) :
    (callbackLoop crcByte f last l t).1.Sublist l := by
  induction l generalizing t with
  | nil => exact List.Sublist.refl _
  | cons cb l ih =>
    obtain ⟨t', -, ⟨ret, hstop⟩ | hdrop | ⟨hkept, -⟩⟩ :=
      callbackLoop_cons_cases crcByte f last l cb t
    · rw [hstop]
    · rw [hdrop]
      exact (ih _).cons cb
    · rw [hkept]
      exact (ih _).cons_cons cb

theorem callbacks_ensureChecksum (l : ObTxCallbackList) (scn : SCN) :
    (l.ensureChecksum crcByte scn).callbacks = l.callbacks := by
  unfold ObTxCallbackList.ensureChecksum
  dsimp only
  split_ifs <;> rfl

section

variable (l : ObTxCallbackList)

theorem callback_sublist (f : ObITxCallbackFunctor σ) (state : σ) (last : Option ℕ) :
    (l.callback crcByte f state last).1.callbacks.Sublist l.callbacks :=
  callbackLoop_sublist f last l.callbacks _

theorem removeCallbacksForFastCommit_sublist (n : ℤ) (stopScn : SCN) :
    (l.removeCallbacksForFastCommit crcByte n stopScn).1.callbacks.Sublist l.callbacks := by
  unfold ObTxCallbackList.removeCallbacksForFastCommit
  dsimp only
  split
  · exact callback_sublist l ..
  · rw [callbacks_ensureChecksum]
    exact callback_sublist l ..

theorem removeCallbacksForRemoveMemtable_sublist (memtableSet : List ℕ) (stopScn : SCN) :
    (l.removeCallbacksForRemoveMemtable crcByte memtableSet stopScn).1.callbacks.Sublist
      l.callbacks := by
  unfold ObTxCallbackList.removeCallbacksForRemoveMemtable
  dsimp only
  split
  · exact callback_sublist l ..
  · rw [callbacks_ensureChecksum]
    exact callback_sublist l ..

theorem removeCallbacksForRollbackTo_sublist (toSeq fromSeq : ObTxSEQ) (replayScn : SCN) :
    (l.removeCallbacksForRollbackTo crcByte toSeq fromSeq replayScn).1.callbacks.Sublist
      l.callbacks := by
  unfold ObTxCallbackList.removeCallbacksForRollbackTo
  dsimp only
  split
  · exact callback_sublist l ..
  · rw [callbacks_ensureChecksum]
    split_ifs <;> exact callback_sublist l ..

theorem txCalcChecksumBeforeScn_sublist (scn : SCN) :
    (l.txCalcChecksumBeforeScn crcByte scn).1.callbacks.Sublist l.callbacks := by
  unfold ObTxCallbackList.txCalcChecksumBeforeScn
  dsimp only
  split
  · exact callback_sublist l ..
  · rw [callbacks_ensureChecksum]
    exact callback_sublist l ..

end

/-! ### The leader -/

/-- A list on the leader, with its past. -/
structure LeaderState where
  list : ObTxCallbackList := {}
  /-- The addresses of all callbacks ever appended, in the order of the list. -/
  appended : List ℕ := []
  /-- All callbacks ever logged, in the order of the logs. -/
  logged : List ObITransCallback := []
  /-- The logs that are submitted and not synced, with the number of their callbacks. -/
  inFlight : List (SCN × ℕ) := []

/-- The operations on a list on the leader. -/
inductive LeaderEvent where
  | append (chain : List ObITransCallback)
  | log (cnt : ℕ) (scn : SCN)
  | sync
  | fastCommit (fastCommitCallbackCount : ℤ) (stopScn : SCN)
  | removeMemtable (memtableSet : List ℕ) (stopScn : SCN)
  | rollbackTo (toSeq fromSeq : ObTxSEQ) (replayScn : SCN)
  | calcChecksumBefore (scn : SCN)

/-- The list as a machine. Callbacks are appended new and at addresses of their own; a log takes a
run of callbacks from the log cursor on, under an SCN larger than all before; logs are synced in
their order; and a rollback starts from a point above all writes, which the caller has just drawn.
-/
def leader (crcByte : UInt64 → UInt8 → UInt64) : Machine LeaderState LeaderEvent where
  ok s
    | .append chain =>
      chain ≠ [] ∧ (∀ cb ∈ chain, cb.scn = SCN.maxScn) ∧
        ((s.list.callbacks ++ chain).map (·.addr)).Nodup
    | .log cnt scn =>
      0 < cnt ∧ cnt ≤ s.list.fromLogCursor.length ∧ 0 < scn.val ∧
        scn.val < SCN.obMaxScnTsNs ∧ ∀ cb ∈ s.logged, cb.scn.val < scn.val
    | .sync => s.inFlight ≠ []
    | .rollbackTo toSeq fromSeq _ =>
      ∀ cb ∈ s.list.callbacks,
        toSeq.getBranch = 0 ∨ toSeq.getBranch = cb.seqNo.getBranch →
          cb.seqNo.getSeq < fromSeq.getSeq
    | .fastCommit .. => True
    | .removeMemtable .. => True
    | .calcChecksumBefore .. => True
  next s
    | .append chain =>
      { s with
        list := (s.list.appendCallback chain).1
        appended := s.appended ++ chain.map (·.addr) }
    | .log cnt scn =>
      { s with
        list := s.list.logSubmitted cnt scn
        logged := s.logged ++ s.list.submitted cnt scn
        inFlight := s.inFlight ++ [(scn, cnt)] }
    | .sync =>
      match s.inFlight with
      | [] => s
      | (scn, cnt) :: inFlight =>
        { s with list := s.list.syncLogSucc scn cnt, inFlight := inFlight }
    | .fastCommit n stopScn =>
      { s with list := (s.list.removeCallbacksForFastCommit crcByte n stopScn).1 }
    | .removeMemtable memtableSet stopScn =>
      { s with list := (s.list.removeCallbacksForRemoveMemtable crcByte memtableSet stopScn).1 }
    | .rollbackTo toSeq fromSeq replayScn =>
      { s with list := (s.list.removeCallbacksForRollbackTo crcByte toSeq fromSeq replayScn).1 }
    | .calcChecksumBefore scn =>
      { s with list := (s.list.txCalcChecksumBeforeScn crcByte scn).1 }

/-- The invariant of a list and its past. -/
structure LeaderHolds (crcByte : UInt64 → UInt8 → UInt64) (s : LeaderState) : Prop where
  holds : Holds crcByte s.logged s.list
  order : ((s.logged ++ s.list.callbacks.filter (·.needSubmitLog)).map (·.addr)).Sublist s.appended
  inFlight : ∀ e ∈ s.inFlight, e.1.val < SCN.obMaxScnTsNs

theorem holds_new : Holds crcByte [] {} where
  good := fun _ h => absurd h not_mem_nil
  first := List.Pairwise.nil
  nodup := nodup_nil
  cursor := rfl
  logged := fun _ h => absurd h not_mem_nil
  counted := Watermark.counted_nil _
  below := fun _ h => absurd h not_mem_nil
  sound := rfl
  watermark := Or.inl rfl
  sync := by decide
  checksum := rfl
  enabled := rfl
  tally := ⟨rfl, rfl, rfl⟩

theorem leaderHolds_new : LeaderHolds crcByte {} :=
  ⟨holds_new, List.Sublist.refl _, fun _ h => absurd h not_mem_nil⟩

/-- An operation that only removes callbacks. -/
theorem LeaderHolds.of_sublist (h : LeaderHolds crcByte s) {l : ObTxCallbackList}
    (hl : Holds crcByte s.logged l) (hsub : l.callbacks.Sublist s.list.callbacks) :
    LeaderHolds crcByte { s with list := l } where
  holds := hl
  order := by
    refine List.Sublist.trans (List.Sublist.map _ ?_) h.order
    exact (List.Sublist.refl _).append (hsub.filter _)
  inFlight := h.inFlight

/-- Every operation of the leader keeps the invariant. -/
theorem LeaderHolds.next {s : LeaderState} (h : LeaderHolds crcByte s) {e : LeaderEvent}
    (he : (leader crcByte).ok s e) : LeaderHolds crcByte ((leader crcByte).next s e) := by
  cases e with
  | append chain =>
    obtain ⟨hne, hnew, hnodup⟩ := he
    refine ⟨(h.holds.appendCallback hne hnew hnodup).2, ?_, h.inFlight⟩
    have hunlogged : (chain.map (·.beforeAppendCb)).filter (·.needSubmitLog) =
        chain.map (·.beforeAppendCb) := by
      refine filter_eq_self.mpr fun cb hcb => ?_
      obtain ⟨c, -, rfl⟩ := mem_map.mp hcb
      rfl
    have haddr : (chain.map (·.beforeAppendCb)).map (·.addr) = chain.map (·.addr) := by
      rw [map_map]
      rfl
    change ((s.logged ++ (s.list.appendCallback chain).1.callbacks.filter _).map _).Sublist
      (s.appended ++ chain.map _)
    rw [callbacks_appendCallback s.list hne, filter_append, hunlogged, ← append_assoc,
      map_append, haddr]
    exact h.order.append (List.Sublist.refl _)
  | log cnt scn =>
    obtain ⟨-, hcnt, hpos, hmax, hlater⟩ := he
    refine ⟨h.holds.logSubmitted cnt hpos hmax hlater hcnt, ?_, ?_⟩
    · have horder := h.order
      rw [← h.holds.split_logCursor.2, ← take_append_drop cnt s.list.fromLogCursor,
        map_append, map_append] at horder
      change ((s.logged ++ s.list.submitted cnt scn ++
        (s.list.logSubmitted cnt scn).callbacks.filter _).map _).Sublist s.appended
      rw [(h.holds.filter_logSubmitted cnt hpos hmax).2, append_assoc, map_append, map_append,
        addr_submitted]
      exact horder
    · intro e he
      rcases mem_append.mp he with he | he
      · exact h.inFlight e he
      · rw [mem_singleton.mp he]
        exact hmax
  | sync =>
    change s.inFlight ≠ [] at he
    obtain ⟨⟨scn, cnt⟩, inFlight, heq⟩ := exists_cons_of_ne_nil he
    have hnext : (leader crcByte).next s .sync =
        { s with list := s.list.syncLogSucc scn cnt, inFlight := inFlight } := by
      unfold leader
      dsimp only
      rw [heq]
    have hin := h.inFlight
    rw [heq] at hin
    rw [hnext]
    exact ⟨h.holds.syncLogSucc (hin _ mem_cons_self) cnt, h.order,
      fun e he => hin e (mem_cons_of_mem _ he)⟩
  | fastCommit n stopScn =>
    exact h.of_sublist (h.holds.removeCallbacksForFastCommit n stopScn).2
      (removeCallbacksForFastCommit_sublist ..)
  | removeMemtable memtableSet stopScn =>
    exact h.of_sublist (h.holds.removeCallbacksForRemoveMemtable memtableSet stopScn).2
      (removeCallbacksForRemoveMemtable_sublist ..)
  | rollbackTo toSeq fromSeq replayScn =>
    exact h.of_sublist (h.holds.removeCallbacksForRollbackTo he replayScn).2
      (removeCallbacksForRollbackTo_sublist ..)
  | calcChecksumBefore scn =>
    exact h.of_sublist (h.holds.txCalcChecksumBeforeScn scn).2 (txCalcChecksumBeforeScn_sublist ..)

theorem LeaderHolds.run (h : LeaderHolds crcByte s) {es : List LeaderEvent}
    (hes : (leader crcByte).Accepts s es) : LeaderHolds crcByte ((leader crcByte).run s es) :=
  hes.invariant (LeaderHolds crcByte) (fun _ _ hs he => hs.next he) h

/-- **The checksum counts every logged callback once.**  After any operations on the leader that
leave only logged callbacks in the list, `tx_calc_checksum_all` has passed to `calc_checksum`
exactly the callbacks ever logged, in the order of the list, each with a `checksum_scn` up to
its SCN; and the checksum is that of all of them, whatever was dropped before. -/
theorem leader_counts_logged_once (crcByte : UInt64 → UInt8 → UInt64) {es : List LeaderEvent}
    (hes : (leader crcByte).Accepts {} es) {s : LeaderState}
    (hs : (leader crcByte).run {} es = s)
    (hall : ∀ cb ∈ s.list.callbacks, cb.needSubmitLog = false) :
    ∃ l, s.list.txCalcChecksumAll crcByte = (l, .ok ()) ∧
      l.batchChecksum.calls.map (·.2) = s.logged ∧
      (s.logged.map (·.addr)).Sublist s.appended ∧
      (∀ c ∈ l.batchChecksum.calls, SCN.le c.1 c.2.scn = true) ∧
      l.checksum = checksumOf crcByte s.logged := by
  have h := leaderHolds_new.run hes
  rw [hs] at h
  obtain ⟨l, heq, hcalls, hbelow, hchecksum⟩ := h.holds.txCalcChecksumAll hall
  refine ⟨l, heq, hcalls, ?_, hbelow, hchecksum⟩
  rw [← append_nil s.logged]
  have hnil : s.list.callbacks.filter (·.needSubmitLog) = [] :=
    filter_eq_nil_iff.mpr fun cb hcb => by simp [hall cb hcb]
  rw [← hnil]
  exact h.order

/-- Three callbacks, of which two are logged and dropped by a fast commit before the third is logged.
-/
def fastCommitted : List LeaderEvent :=
  [.append [⟨1, true, SCN.maxScn, 0, ⟨1⟩, 0, some [[7]]⟩, ⟨2, true, SCN.maxScn, 0, ⟨2⟩, 0, none⟩,
      ⟨3, true, SCN.maxScn, 0, ⟨3⟩, 0, some [[8], [9]]⟩],
    .log 2 (SCN.minScn.plus 5), .sync, .fastCommit 2 SCN.invalid, .log 1 (SCN.minScn.plus 9)]

theorem accepts_fastCommitted : (leader fun c _ => c).Accepts {} fastCommitted :=
  ⟨⟨by decide, by decide, by decide⟩, ⟨by decide, by decide, by decide, by decide, by decide⟩,
    cons_ne_nil _ _, trivial, ⟨by decide, by decide, by decide, by decide, by decide⟩, trivial⟩

theorem leader_counts_logged_once_fastCommit :
    ∃ (crcByte : UInt64 → UInt8 → UInt64) (es : List LeaderEvent) (l : ObTxCallbackList),
      (leader crcByte).Accepts {} es ∧
      ((leader crcByte).run {} es).list.callbacks.length = 1 ∧
      ((leader crcByte).run {} es).list.txCalcChecksumAll crcByte = (l, .ok ()) ∧
      l.batchChecksum.calls.map (·.2.addr) = [1, 2, 3] := by
  obtain ⟨l, heq, hcalls, -⟩ := leader_counts_logged_once (fun c _ => c) accepts_fastCommitted rfl
    (by decide)
  refine ⟨_, _, l, accepts_fastCommitted, by decide, heq, ?_⟩
  have hmap := congrArg (List.map ObITransCallback.addr) hcalls
  rw [map_map] at hmap
  exact hmap.trans (by decide)

/-- **The sanity checks** of `reset` hold. -/
theorem leader_reset_sane (crcByte : UInt64 → UInt8 → UInt64) {es : List LeaderEvent}
    (hes : (leader crcByte).Accepts {} es) (hs : (leader crcByte).run {} es = s) :
    s.list.length + s.list.removed = s.list.appended ∧
      ((∀ cb ∈ s.list.callbacks, cb.needSubmitLog = false) →
        s.list.length + s.list.removed = s.list.logged + s.list.unlogRemoved) := by
  have h := leaderHolds_new.run hes
  rw [hs] at h
  refine ⟨h.holds.tally.appended, fun hall => ?_⟩
  have hzero : s.list.callbacks.countP (·.needSubmitLog) = 0 :=
    countP_eq_zero.mpr fun cb hcb => by simp [hall cb hcb]
  have hlogged := h.holds.tally.logged
  rw [hzero] at hlogged
  rw [h.holds.tally.appended, ← hlogged]
  omega

theorem leader_reset_sane_fastCommit : (leader fun c _ => c).Accepts {} fastCommitted ∧
    let l := ((leader fun c _ => c).run {} fastCommitted).list
    l.appended = 3 ∧ l.removed = 2 ∧ l.length + l.removed = l.appended ∧
      l.length + l.removed = l.logged + l.unlogRemoved := by
  obtain ⟨happended, hlogged⟩ := leader_reset_sane _ accepts_fastCommitted rfl
  exact ⟨accepts_fastCommitted, by decide, by decide, happended, hlogged (by decide)⟩

end Andl.Storage
