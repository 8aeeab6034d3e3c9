import Andl.Storage.TxCallbackList

/-!
# Traversals of callback lists
-/

namespace Andl.Storage

open List

variable (crcByte : UInt64 → UInt8 → UInt64)

/-! ### The checksum is that of the bytes -/

namespace ObBatchChecksum

/-- The CRC of all bytes so far. -/
def value (c : ObBatchChecksum) : UInt64 := obCrc64 crcByte c.base c.buffer

theorem value_fillByte (c : ObBatchChecksum) (b : UInt8) :
    (c.fillByte crcByte b).value crcByte = crcByte (c.value crcByte) b := by
  have hpush : obCrc64 crcByte c.base (c.buffer ++ [b]) = crcByte (c.value crcByte) b := by
    unfold value obCrc64
    rw [foldl_append, foldl_cons, foldl_nil]
  unfold fillByte
  dsimp only
  split_ifs
  · exact hpush
  · exact hpush

theorem value_fill (c : ObBatchChecksum) (bytes : List UInt8) :
    (c.fill crcByte bytes).value crcByte = obCrc64 crcByte (c.value crcByte) bytes := by
  unfold fill
  induction bytes generalizing c with
  | nil => rfl
  | cons b bytes ih =>
    rw [foldl_cons, ih, value_fillByte]
    rfl

theorem base_calcCrc (c : ObBatchChecksum) : (c.calcCrc crcByte).base = c.value crcByte := by
  unfold calcCrc
  split_ifs with h
  · rfl
  · have hnil : c.buffer = [] := eq_nil_of_length_eq_zero (Nat.eq_zero_of_not_pos h)
    rw [value, hnil]
    rfl

theorem value_calcCrc (c : ObBatchChecksum) :
    (c.calcCrc crcByte).value crcByte = c.value crcByte := by
  unfold calcCrc
  split_ifs with h
  · rfl
  · rfl

end ObBatchChecksum

/-- The bytes that a call of `calc_checksum` fills in. -/
def callBytes (call : SCN × ObITransCallback) : List UInt8 :=
  if SCN.le call.1 call.2.scn then (call.2.checksumData.getD []).flatten else []

/-- The checksum is that of the bytes of all calls. -/
def TxChecksum.Sound (c : TxChecksum) : Prop :=
  c.batch.value crcByte = obCrc64 crcByte 0 (c.calls.flatMap callBytes)

variable {crcByte}

theorem TxChecksum.Sound.calcCrc {c : TxChecksum} (h : c.Sound crcByte) :
    (c.calcCrc crcByte).Sound crcByte := by
  unfold Sound TxChecksum.calcCrc
  rw [ObBatchChecksum.value_calcCrc]
  exact h

theorem value_foldl_fill (c : ObBatchChecksum) (fields : List (List UInt8)) :
    (fields.foldl (ObBatchChecksum.fill crcByte) c).value crcByte =
      obCrc64 crcByte (c.value crcByte) fields.flatten := by
  induction fields generalizing c with
  | nil => rfl
  | cons bytes fields ih =>
    rw [foldl_cons, ih, ObBatchChecksum.value_fill, flatten_cons]
    exact (foldl_append ..).symm

theorem ObITransCallback.calls_calcChecksum (cb : ObITransCallback) (checksumScn : SCN)
    (c : TxChecksum) :
    (cb.calcChecksum crcByte checksumScn c).calls = c.calls ++ [(checksumScn, cb)] := by
  unfold calcChecksum
  dsimp only
  split
  · rfl
  · split_ifs <;> rfl

theorem TxChecksum.Sound.calcChecksum {c : TxChecksum} (h : c.Sound crcByte) (cb : ObITransCallback)
    (checksumScn : SCN) : (cb.calcChecksum crcByte checksumScn c).Sound crcByte := by
  have hbytes : (c.calls ++ [(checksumScn, cb)]).flatMap callBytes =
      c.calls.flatMap callBytes ++ callBytes (checksumScn, cb) := by
    rw [flatMap_append, flatMap_singleton]
  unfold Sound at h ⊢
  rw [cb.calls_calcChecksum, hbytes, obCrc64, foldl_append]
  change _ = obCrc64 crcByte (obCrc64 crcByte 0 _) _
  rw [← h]
  unfold ObITransCallback.calcChecksum callBytes
  dsimp only
  cases hdata : cb.checksumData with
  | none =>
    split_ifs <;> rfl
  | some fields =>
    split_ifs with hle
    · exact value_foldl_fill _ _
    · rfl

/-! ### Traversals -/

/-- What a functor does with each callback. -/
structure Plan (σ : Type) where
  counts : ObITransCallback → Bool
  removes : ObITransCallback → Bool
  /-- Whose SCN the functor keeps. -/
  marks : ObITransCallback → Bool
  /-- The SCN that it keeps. -/
  last : σ → SCN

variable {σ : Type}

/-- A functor follows a plan on the callbacks that satisfy `P`. -/
def Follows (crcByte : UInt64 → UInt8 → UInt64) (f : ObITxCallbackFunctor σ) (p : Plan σ)
    (checksumScn : SCN) (P : ObITransCallback → Prop) : Prop :=
  ∀ state c cb, P cb → f.isIterEnd state cb = false → ∃ state',
    f.call state c cb =
      ⟨.ok (), state', if p.counts cb then cb.calcChecksum crcByte checksumScn c else c,
        p.removes cb⟩ ∧
    p.last state' = if p.marks cb then cb.scn else p.last state

/-- A traversal visited `V` and left `R`. -/
structure Visited (crcByte : UInt64 → UInt8 → UInt64) (f : ObITxCallbackFunctor σ) (p : Plan σ)
    (checksumScn : SCN) (last : Option ℕ) (l : List ObITransCallback) (t : Traversal σ)
    (r : List ObITransCallback × Traversal σ × ObResult Unit) (V R : List ObITransCallback) :
    Prop where
  eq_append : l = V ++ R
  ret : r.2.2 = .ok ()
  left : r.1 = V.filter (fun cb => !p.removes cb) ++ R
  calls : r.2.1.batchChecksum.calls =
    t.batchChecksum.calls ++ (V.filter p.counts).map (fun cb => (checksumScn, cb))
  sound : t.batchChecksum.Sound crcByte → r.2.1.batchChecksum.Sound crcByte
  marked : p.last r.2.1.functor =
    (V.filter p.marks).foldl (fun _ cb => cb.scn) (p.last t.functor)
  went_on : ∀ cb ∈ V, some cb.addr ≠ last ∧ ∃ state, f.isIterEnd state cb = false
  stopped : ∀ cb ∈ R.head?, last = some cb.addr ∨ f.isIterEnd r.2.1.functor cb = true
  removed : r.2.1.removed = t.removed + (V.filter p.removes).length
  removeCount : r.2.1.removeCount = t.removeCount + (V.filter p.removes).length
  unlogRemoved : r.2.1.unlogRemoved = t.unlogRemoved +
    (V.filter (fun cb => p.removes cb && cb.needSubmitLog)).length

section

variable {f : ObITxCallbackFunctor σ} {p : Plan σ} {checksumScn : SCN} {last : Option ℕ}
  {P : ObITransCallback → Prop} {l : List ObITransCallback}

theorem Visited.stop {t : Traversal σ}
    (hstop : ∀ cb ∈ l.head?, last = some cb.addr ∨ f.isIterEnd t.functor cb = true) :
    Visited crcByte f p checksumScn last l t (l, t, .ok ()) [] l where
  eq_append := rfl
  ret := rfl
  left := rfl
  calls := (append_nil _).symm
  sound := id
  marked := rfl
  went_on := fun _ h => absurd h not_mem_nil
  stopped := hstop
  removed := (Int.add_zero _).symm
  removeCount := (Int.add_zero _).symm
  unlogRemoved := (Int.add_zero _).symm

/-- The state of a traversal after a call that follows the plan. -/
def Traversal.called (crcByte : UInt64 → UInt8 → UInt64) (p : Plan σ) (checksumScn : SCN)
    (t : Traversal σ) (state : σ) (cb : ObITransCallback) : Traversal σ :=
  { t with
    functor := state
    batchChecksum :=
      if p.counts cb then cb.calcChecksum crcByte checksumScn t.batchChecksum
      else t.batchChecksum }

theorem Traversal.calls_called (t : Traversal σ) (state : σ) (cb : ObITransCallback) :
    (t.called crcByte p checksumScn state cb).batchChecksum.calls =
      t.batchChecksum.calls ++ ([cb].filter p.counts).map (fun cb => (checksumScn, cb)) := by
  unfold called
  cases h : p.counts cb with
  | false => simp [h]
  | true => simp [h, cb.calls_calcChecksum]

theorem Traversal.sound_called {t : Traversal σ} (h : t.batchChecksum.Sound crcByte) (state : σ)
    (cb : ObITransCallback) :
    (t.called crcByte p checksumScn state cb).batchChecksum.Sound crcByte := by
  unfold called
  dsimp only
  split_ifs
  · exact h.calcChecksum cb checksumScn
  · exact h

theorem Traversal.calls_remove (t : Traversal σ) (cb : ObITransCallback)
    (next : Option ObITransCallback) :
    (t.remove crcByte cb next).batchChecksum.calls = t.batchChecksum.calls := by
  unfold remove
  dsimp only
  split_ifs <;> rfl

theorem Traversal.sound_remove {t : Traversal σ} (h : t.batchChecksum.Sound crcByte)
    (cb : ObITransCallback) (next : Option ObITransCallback) :
    (t.remove crcByte cb next).batchChecksum.Sound crcByte := by
  unfold remove
  dsimp only
  split_ifs
  · exact h.calcCrc
  · exact h

variable {t : Traversal σ} {cb : ObITransCallback} {V R : List ObITransCallback} {state : σ}
  {r : List ObITransCallback × Traversal σ × ObResult Unit}

theorem foldl_marks_cons (h : p.last state = if p.marks cb then cb.scn else p.last t.functor) :
    (V.filter p.marks).foldl (fun _ cb => cb.scn) (p.last state) =
      ((cb :: V).filter p.marks).foldl (fun _ cb => cb.scn) (p.last t.functor) := by
  rw [h]
  cases hm : p.marks cb with
  | false => rw [filter_cons_of_neg (by simp [hm])]; rfl
  | true => rw [filter_cons_of_pos hm]; rfl

/-- A visit to a callback that is kept. -/
theorem Visited.keep (hlast : last ≠ some cb.addr) (hgo : f.isIterEnd t.functor cb = false)
    (hstate : p.last state = if p.marks cb then cb.scn else p.last t.functor)
    (hkeep : p.removes cb = false)
    (h : Visited crcByte f p checksumScn last l (t.called crcByte p checksumScn state cb) r V R) :
    Visited crcByte f p checksumScn last (cb :: l) t (cb :: r.1, r.2.1, r.2.2) (cb :: V) R where
  eq_append := by rw [h.eq_append, cons_append]
  ret := h.ret
  left := by rw [filter_cons_of_pos (by simp [hkeep]), h.left, cons_append]
  calls := by
    rw [h.calls, t.calls_called, append_assoc, ← map_append, ← filter_append,
      singleton_append]
  sound := fun hs => h.sound (Traversal.sound_called hs state cb)
  marked := h.marked.trans (foldl_marks_cons hstate)
  went_on := forall_mem_cons.mpr ⟨⟨Ne.symm hlast, t.functor, hgo⟩, h.went_on⟩
  stopped := h.stopped
  removed := by
    rw [h.removed, filter_cons_of_neg (by simp [hkeep])]
    rfl
  removeCount := by
    rw [h.removeCount, filter_cons_of_neg (by simp [hkeep])]
    rfl
  unlogRemoved := by
    rw [h.unlogRemoved, filter_cons_of_neg (by simp [hkeep])]
    rfl

/-- A visit to a callback that is removed. -/
theorem Visited.drop (hlast : last ≠ some cb.addr) (hgo : f.isIterEnd t.functor cb = false)
    (hstate : p.last state = if p.marks cb then cb.scn else p.last t.functor)
    (hdrop : p.removes cb = true) (next : Option ObITransCallback)
    (h : Visited crcByte f p checksumScn last l
      ((t.called crcByte p checksumScn state cb).remove crcByte cb next) r V R) :
    Visited crcByte f p checksumScn last (cb :: l) t r (cb :: V) R where
  eq_append := by rw [h.eq_append, cons_append]
  ret := h.ret
  left := by rw [filter_cons_of_neg (by simp [hdrop]), h.left]
  calls := by
    rw [h.calls, Traversal.calls_remove, t.calls_called, append_assoc, ← map_append,
      ← filter_append, singleton_append]
  sound := fun hs => h.sound (Traversal.sound_remove (Traversal.sound_called hs state cb) cb next)
  marked := h.marked.trans (foldl_marks_cons hstate)
  went_on := forall_mem_cons.mpr ⟨⟨Ne.symm hlast, t.functor, hgo⟩, h.went_on⟩
  stopped := h.stopped
  removed := by
    rw [h.removed, filter_cons_of_pos hdrop, length_cons]
    change t.removed + 1 + _ = _
    omega
  removeCount := by
    rw [h.removeCount, filter_cons_of_pos hdrop, length_cons]
    change t.removeCount + 1 + _ = _
    omega
  unlogRemoved := by
    rw [h.unlogRemoved]
    change (if cb.needSubmitLog then t.unlogRemoved + 1 else t.unlogRemoved) + _ = _
    cases hneed : cb.needSubmitLog with
    | false =>
      rw [filter_cons_of_neg (by simp [hneed])]
      rfl
    | true =>
      rw [filter_cons_of_pos (by simp [hdrop, hneed]), length_cons, if_pos rfl]
      omega

/-- One round of the loop of `callback_` that does not stop. -/
theorem callbackLoop_cons (hf : Follows crcByte f p checksumScn P) (hP : P cb)
    (hmin : cb.scn ≠ SCN.minScn) (hlast : last ≠ some cb.addr)
    (hgo : f.isIterEnd t.functor cb = false) :
    ∃ state, (p.last state = if p.marks cb then cb.scn else p.last t.functor) ∧
      callbackLoop crcByte f last (cb :: l) t =
        if p.removes cb then
          callbackLoop crcByte f last l
            ((t.called crcByte p checksumScn state cb).remove crcByte cb l.head?)
        else
          let r := callbackLoop crcByte f last l (t.called crcByte p checksumScn state cb)
          (cb :: r.1, r.2.1, r.2.2) := by
  obtain ⟨state, hcall, hstate⟩ := hf t.functor t.batchChecksum cb hP hgo
  refine ⟨state, hstate, ?_⟩
  rw [callbackLoop, if_neg hlast, if_neg hmin, hgo, if_neg Bool.false_ne_true, hcall]
  rfl

/-- **A traversal** with a functor that follows a plan visits a first part of the list. -/
theorem callbackLoop_visited (hf : Follows crcByte f p checksumScn P) (hP : ∀ cb ∈ l, P cb)
    (hmin : ∀ cb ∈ l, cb.scn ≠ SCN.minScn) (last : Option ℕ) (t : Traversal σ) :
    ∃ V R, Visited crcByte f p checksumScn last l t (callbackLoop crcByte f last l t) V R := by
  induction l generalizing t with
  | nil => exact ⟨[], [], Visited.stop (fun _ h => absurd h (Option.not_mem_none _))⟩
  | cons cb l ih =>
    have ih := ih (fun c hc => hP c (mem_cons_of_mem _ hc))
      (fun c hc => hmin c (mem_cons_of_mem _ hc))
    have hP := hP cb mem_cons_self
    have hmin := hmin cb mem_cons_self
    by_cases hlast : last = some cb.addr
    · rw [callbackLoop, if_pos hlast]
      refine ⟨[], cb :: l, Visited.stop fun c hc => ?_⟩
      obtain rfl : cb = c := Option.mem_some.mp hc
      exact Or.inl hlast
    cases hgo : f.isIterEnd t.functor cb with
    | true =>
      rw [callbackLoop, if_neg hlast, if_neg hmin, hgo, if_pos rfl]
      refine ⟨[], cb :: l, Visited.stop fun c hc => ?_⟩
      obtain rfl : cb = c := Option.mem_some.mp hc
      exact Or.inr hgo
    | false =>
      obtain ⟨state, hstate, hloop⟩ :=
        callbackLoop_cons (l := l) hf hP hmin hlast hgo
      rw [hloop]
      cases hrm : p.removes cb with
      | true =>
        obtain ⟨V, R, hV⟩ := ih _
        exact ⟨cb :: V, R, Visited.drop hlast hgo hstate hrm _ hV⟩
      | false =>
        obtain ⟨V, R, hV⟩ := ih _
        exact ⟨cb :: V, R, Visited.keep hlast hgo hstate hrm hV⟩

end

/-! ### The log cursor -/

/-- The address of the first callback that is not logged. -/
def firstUnlogged (l : List ObITransCallback) : Option ℕ :=
  (l.find? (·.needSubmitLog)).map (·.addr)

/-- The logged callbacks come first. -/
def LoggedFirst (l : List ObITransCallback) : Prop :=
  l.Pairwise (fun a b => a.needSubmitLog = true → b.needSubmitLog = true)

theorem firstUnlogged_cons_of_logged {cb : ObITransCallback} (h : cb.needSubmitLog = false)
    (l : List ObITransCallback) : firstUnlogged (cb :: l) = firstUnlogged l := by
  unfold firstUnlogged
  rw [find?_cons_of_neg (by simp [h])]

theorem firstUnlogged_cons_of_unlogged {cb : ObITransCallback} (h : cb.needSubmitLog = true)
    (l : List ObITransCallback) : firstUnlogged (cb :: l) = some cb.addr := by
  unfold firstUnlogged
  rw [find?_cons_of_pos h]
  rfl

theorem firstUnlogged_eq_head {l : List ObITransCallback}
    (h : ∀ cb ∈ l, cb.needSubmitLog = true) : firstUnlogged l = l.head?.map (·.addr) := by
  cases l with
  | nil => rfl
  | cons cb l => exact firstUnlogged_cons_of_unlogged (h cb mem_cons_self) l

theorem mem_of_firstUnlogged {l : List ObITransCallback} {a : ℕ}
    (h : firstUnlogged l = some a) : a ∈ l.map (·.addr) := by
  unfold firstUnlogged at h
  obtain ⟨cb, hcb, rfl⟩ := Option.map_eq_some_iff.mp h
  exact mem_map_of_mem (mem_of_find?_eq_some hcb)

section

variable {f : ObITxCallbackFunctor σ} {last : Option ℕ} {l : List ObITransCallback}
  {cb : ObITransCallback} {t : Traversal σ}

theorem callbackLoop_cons_cases (crcByte : UInt64 → UInt8 → UInt64) (f : ObITxCallbackFunctor σ)
    (last : Option ℕ) (l : List ObITransCallback) (cb : ObITransCallback) (t : Traversal σ) :
    ∃ t' : Traversal σ, t'.logCursor = t.logCursor ∧
      ((∃ ret, callbackLoop crcByte f last (cb :: l) t = (cb :: l, t', ret)) ∨
        callbackLoop crcByte f last (cb :: l) t =
          callbackLoop crcByte f last l (t'.remove crcByte cb l.head?) ∨
        (callbackLoop crcByte f last (cb :: l) t).1 = cb :: (callbackLoop crcByte f last l t').1 ∧
        (callbackLoop crcByte f last (cb :: l) t).2 = (callbackLoop crcByte f last l t').2) := by
  rw [callbackLoop]
  by_cases hlast : last = some cb.addr
  · rw [if_pos hlast]
    exact ⟨t, rfl, Or.inl ⟨_, rfl⟩⟩
  by_cases hmin : cb.scn = SCN.minScn
  · rw [if_neg hlast, if_pos hmin]
    exact ⟨t, rfl, Or.inl ⟨_, rfl⟩⟩
  rw [if_neg hlast, if_neg hmin]
  cases hgo : f.isIterEnd t.functor cb with
  | true => exact ⟨t, rfl, Or.inl ⟨_, rfl⟩⟩
  | false =>
    rw [if_neg Bool.false_ne_true]
    obtain ⟨ret, state, c, rm⟩ := f.call t.functor t.batchChecksum cb
    refine ⟨{ t with functor := state, batchChecksum := c }, rfl, ?_⟩
    cases ret with
    | error e => exact Or.inl ⟨_, rfl⟩
    | ok _ =>
      cases rm with
      | true => exact Or.inr (Or.inl rfl)
      | false => exact Or.inr (Or.inr ⟨rfl, rfl⟩)

theorem logCursor_remove_of_ne {next : Option ObITransCallback} (h : t.logCursor ≠ some cb.addr) :
    (t.remove crcByte cb next).logCursor = t.logCursor := if_neg h

theorem logCursor_remove_of_eq {next : Option ObITransCallback} (h : t.logCursor = some cb.addr) :
    (t.remove crcByte cb next).logCursor = next.map (·.addr) := if_pos h

/-- A cursor outside of the part that is traversed stays. -/
theorem callbackLoop_logCursor_of_forall_ne (h : ∀ cb ∈ l, t.logCursor ≠ some cb.addr) :
    (callbackLoop crcByte f last l t).2.1.logCursor = t.logCursor := by
  induction l generalizing t with
  | nil => rfl
  | cons cb l ih =>
    have hcb := h cb mem_cons_self
    have hl : ∀ c ∈ l, t.logCursor ≠ some c.addr := fun c hc => h c (mem_cons_of_mem _ hc)
    obtain ⟨t', ht', ⟨ret, hstop⟩ | hdrop | ⟨-, hkeep⟩⟩ :=
      callbackLoop_cons_cases crcByte f last l cb t
    · rw [hstop]
      exact ht'
    · have hcursor : (t'.remove crcByte cb l.head?).logCursor = t.logCursor := by
        rw [logCursor_remove_of_ne (by rwa [ht']), ht']
      rw [hdrop, ih (by rwa [hcursor]), hcursor]
    · rw [hkeep, ih (by rwa [ht']), ht']

/-- **The log cursor** stays at the first callback that is not logged. -/
theorem callbackLoop_logCursor (crcByte : UInt64 → UInt8 → UInt64) (f : ObITxCallbackFunctor σ)
    (last : Option ℕ) (hfirst : LoggedFirst l) (hnodup : (l.map (·.addr)).Nodup)
    (h : t.logCursor = firstUnlogged l) :
    (callbackLoop crcByte f last l t).2.1.logCursor =
      firstUnlogged (callbackLoop crcByte f last l t).1 := by
  induction l generalizing t with
  | nil => exact h
  | cons cb l ih =>
    rw [LoggedFirst, pairwise_cons] at hfirst
    rw [map_cons, nodup_cons] at hnodup
    obtain ⟨t', ht', ⟨ret, hstop⟩ | hdrop | ⟨hkept, hkeep⟩⟩ :=
      callbackLoop_cons_cases crcByte f last l cb t
    · rw [hstop]
      exact ht'.trans h
    · rw [hdrop]
      refine ih hfirst.2 hnodup.2 ?_
      cases hneed : cb.needSubmitLog with
      | true =>
        -- the cursor moves from the callback to the next one, which is not logged either
        rw [firstUnlogged_cons_of_unlogged hneed] at h
        rw [logCursor_remove_of_eq (ht'.trans h),
          firstUnlogged_eq_head (fun c hc => hfirst.1 c hc hneed)]
      | false =>
        rw [firstUnlogged_cons_of_logged hneed] at h
        have hne : t'.logCursor ≠ some cb.addr := by
          rw [ht', h]
          exact fun heq => hnodup.1 (mem_of_firstUnlogged heq)
        rw [logCursor_remove_of_ne hne, ht', h]
    · rw [hkeep, hkept]
      cases hneed : cb.needSubmitLog with
      | true =>
        rw [firstUnlogged_cons_of_unlogged hneed] at h ⊢
        rw [callbackLoop_logCursor_of_forall_ne, ht', h]
        intro c hc heq
        rw [ht', h, Option.some_inj] at heq
        exact hnodup.1 (heq ▸ mem_map_of_mem hc)
      | false =>
        rw [firstUnlogged_cons_of_logged hneed] at h ⊢
        exact ih hfirst.2 hnodup.2 (ht'.trans h)

end

end Andl.Storage
