import Andl.Palf.GroupBuffer

/-!
# The group buffer is a window of an unbounded log
-/

namespace Andl.Palf

/-! ### Write buffers -/

namespace LogWriteBuf

theorem bytes_append (buf buf' : LogWriteBuf) (mem : Nat → UInt8) :
    (buf ++ buf').bytes mem = buf.bytes mem ++ buf'.bytes mem := List.flatMap_append

/-- The pieces make up the whole. -/
theorem bytes_pushPieces (step pos : Nat) (hstep : 0 < step) (len : Nat) (mem : Nat → UInt8) :
    (pushPieces step pos hstep len).bytes mem = Ring.load mem pos len := by
  fun_induction pushPieces step pos hstep len with
  | case1 pos len hlen limit ih =>
    have hsum : limit + (len - limit) = len := by omega
    rw [bytes, List.flatMap_cons, ← bytes, ih, ← Ring.load_add, hsum]
  | case2 pos len hlen =>
    have hzero : len = 0 := by omega
    rw [hzero]
    rfl

theorem bytes_pushBack {buf buf' : LogWriteBuf} {pos len : Nat}
    (h : buf.pushBack pos len = .ok buf') (mem : Nat → UInt8) :
    buf'.bytes mem = buf.bytes mem ++ Ring.load mem pos len := by
  unfold pushBack at h
  by_cases hlen : len = 0
  · rw [if_pos hlen] at h
    cases h
  · rw [if_neg hlen, Except.ok.injEq] at h
    rw [← h, bytes_append, bytes_pushPieces]

end LogWriteBuf

namespace LogGroupBuffer

/-! ### The calls -/

section Calls

variable {b b' : LogGroupBuffer} {lsn : LSN}

theorem getBufferPos_ok {pos : Nat} (h : b.getBufferPos lsn = .ok pos) :
    b.startLsn.val ≤ lsn.val ∧ lsn.val - b.startLsn.val < 2 ^ 63 ∧
      pos = Ring.slot b.reservedBufferSize b.startLsn.val lsn.val := by
  simp only [getBufferPos] at h
  split_ifs at h with h1 h2 h3 h4
  have hle : b.startLsn ≤ lsn := not_lt.mp h3
  have hlt : lsn.val - b.startLsn.val < 2 ^ 63 := by
    rw [LSN.sub_neg_iff hle] at h4
    omega
  rw [LSN.sub_of_le hle hlt, Int.toNat_natCast, Except.ok.injEq] at h
  exact ⟨hle, hlt, h.symm⟩

theorem checkFill_ok {len pos : Nat} (hstart : b.startLsn ≤ b.reuseLsn) (hlen : len < 2 ^ 63)
    (h : b.checkFill lsn (lsn.add len) = .ok pos) :
    (lsn.add len).val = lsn.val + len ∧
      lsn.val + len ≤ b.reuseLsn.val + b.availableBufferSize ∧
      pos = Ring.slot b.reservedBufferSize b.startLsn.val lsn.val := by
  unfold checkFill at h
  split_ifs at h with h1 h2 h3
  obtain ⟨hle, hdiff, hpos⟩ := getBufferPos_ok h
  have hs : b.startLsn.val ≤ b.reuseLsn.val := hstart
  have hreuse : b.reuseLsn.val < (lsn.val + len) % 2 ^ 64 := not_le.mp h2
  have hend : (lsn.val + len) % 2 ^ 64 ≤ (b.reuseLsn.val + b.availableBufferSize) % 2 ^ 64 :=
    not_lt.mp h3
  have hlsn := lsn.isLt
  -- a wrapped end would lie below the start of the buffer
  have hadd : lsn.val + len < 2 ^ 64 := by
    by_contra hge
    rw [Nat.mod_eq_sub_mod (by omega), Nat.mod_eq_of_lt (by omega)] at hreuse
    omega
  refine ⟨LSN.val_add hadd, ?_, hpos⟩
  rw [Nat.mod_eq_of_lt hadd] at hend
  exact hend.trans (Nat.mod_le _ _)

/-- One round before the end of the fill, as a lower bound. -/
theorem le_genReadableBeginLsnForFilling (b : LogGroupBuffer) (lsn : LSN) :
    lsn.val ≤ (b.genReadableBeginLsnForFilling lsn).val + b.reservedBufferSize := by
  have hlt := lsn.isLt
  unfold genReadableBeginLsnForFilling
  split_ifs with h
  · show lsn.val ≤ (lsn.val - b.reservedBufferSize) % 2 ^ 64 + b.reservedBufferSize
    rw [Nat.mod_eq_of_lt (by omega)]
    omega
  · omega

theorem val_max (l m : LSN) : (max l m).val = max l.val m.val := by
  rcases le_total l m with h | h
  · rw [max_eq_right h, Nat.max_eq_right h]
  · rw [max_eq_left h, Nat.max_eq_left h]

theorem fill_eq {data : List UInt8} {pos : Nat} (hinited : b.isInited = true)
    (hvalid : lsn.isValid = true) (hdata : data.isEmpty = false)
    (hpos : b.checkFill lsn (lsn.add data.length) = .ok pos) :
    b.fill lsn data = .ok ((b.incUpdateReadableBeginLsn'
      (b.genReadableBeginLsnForFilling (lsn.add data.length))).fill' pos data) := by
  simp only [fill, hinited, hvalid, hdata, hpos]
  rfl

/-- The bytes `get_log_buf` refers to are those of the ring. -/
theorem bytes_getLogBuf {len : Nat} {buf : LogWriteBuf} (h : b.getLogBuf lsn len = .ok buf) :
    b.startLsn.val ≤ lsn.val ∧ buf.bytes b.dataBuf = Ring.loadWrapped b.reservedBufferSize
      b.dataBuf (Ring.slot b.reservedBufferSize b.startLsn.val lsn.val) len := by
  unfold getLogBuf at h
  split_ifs at h with h1 h2 h3
  obtain ⟨pos, hpos, h⟩ := ObResult.bind_eq_ok.mp h
  obtain ⟨first, hfirst, h⟩ := ObResult.bind_eq_ok.mp h
  obtain ⟨hle, -, hslot⟩ := getBufferPos_ok hpos
  have hbytes := LogWriteBuf.bytes_pushBack hfirst b.dataBuf
  refine ⟨hle, ?_⟩
  rw [← hslot, Ring.loadWrapped]
  split_ifs at h ⊢ with hmore
  · rw [LogWriteBuf.bytes_pushBack h, hbytes]
    rfl
  · rw [← ObResult.pure_eq_ok.mp h, hbytes]
    rfl

end Calls

/-! ### Runs -/

/-- One successful call on a buffer, and what becomes of the log. -/
inductive Step : LogGroupBuffer × Log UInt8 → LogGroupBuffer × Log UInt8 → Prop
  | fill {b b' : LogGroupBuffer} {L : Log UInt8} {lsn : LSN} {data : List UInt8}
      (hlen : data.length < 2 ^ 63) (hreuse : b.reuseLsn ≤ lsn) (h : b.fill lsn data = .ok b') :
      Step (b, L) (b', L.write lsn.val data)
  | fillPaddingBody {b b' : LogGroupBuffer} {L : Log UInt8} {lsn : LSN} {data : List UInt8}
      {logBodySize : Nat} (hlen : logBodySize < 2 ^ 63) (hdata : data.length ≤ logBodySize)
      (hreuse : b.reuseLsn ≤ lsn) (h : b.fillPaddingBody lsn data logBodySize = .ok b') :
      Step (b, L) (b', (L.write lsn.val (List.replicate logBodySize paddingLogContentChar)).write
        lsn.val data)
  | incUpdateReuseLsn {b b' : LogGroupBuffer} {L : Log UInt8} {newReuseLsn : LSN}
      (hfilled : ∀ x, b.reuseLsn.val ≤ x → x < newReuseLsn.val → b.readableBeginLsn.val ≤ x →
        L x ≠ none)
      (h : b.incUpdateReuseLsn newReuseLsn = .ok b') : Step (b, L) (b', L)
  | incUpdateReadableBeginLsn {b b' : LogGroupBuffer} {L : Log UInt8} {newLsn : LSN}
      (h : b.incUpdateReadableBeginLsn newLsn = .ok b') : Step (b, L) (b', L)
  | truncate {b b' : LogGroupBuffer} {L : Log UInt8} {newLsn : LSN}
      (h : b.truncate newLsn = .ok b') : Step (b, L) (b', L.truncate newLsn.val)
  | readData {b : LogGroupBuffer} {L : Log UInt8} {lsn : LSN} {inReadSize : Int}
      {bytes : List UInt8} (h : b.readData lsn inReadSize = .ok bytes) : Step (b, L) (b, L)
  | toLeader {b b' : LogGroupBuffer} {L : Log UInt8} (h : b.toLeader = .ok b') :
      Step (b, L) (b', L)
  | toFollower {b b' : LogGroupBuffer} {L : Log UInt8} (h : b.toFollower = .ok b') :
      Step (b, L) (b', L)

/-- The buffer is a window of the log, and the cells behind it are untouched. -/
structure Inv (b : LogGroupBuffer) (L : Log UInt8) : Prop where
  reserved_eq : b.reservedBufferSize = followerDefaultGroupBufferSize
  available_le : b.availableBufferSize ≤ b.reservedBufferSize
  window : Ring.Window b.reservedBufferSize b.startLsn.val b.dataBuf L b.readableBeginLsn.val
    b.reuseLsn.val
  outside {i : Nat} : b.reservedBufferSize ≤ i → b.dataBuf i = 0

section Steps

variable {b b' : LogGroupBuffer} {L : Log UInt8}

theorem init_inv {startLsn : LSN} (h : reset.init startLsn = .ok b) : b.Inv Log.empty := by
  unfold init at h
  split_ifs at h with h1 h2
  rw [Except.ok.injEq] at h
  subst h
  exact ⟨rfl, le_rfl, Ring.Window.start _, fun _ => rfl⟩

/-- Copying into the ring, once the lower end is out of the way. -/
theorem Inv.fill' (hi : b.Inv L) {lsn : LSN} {data : List UInt8} (hreuse : b.reuseLsn ≤ lsn)
    (hfit : lsn.val + data.length ≤ b.reuseLsn.val + b.reservedBufferSize)
    (hlo : lsn.val + data.length ≤ b.readableBeginLsn.val + b.reservedBufferSize) :
    (b.fill' (Ring.slot b.reservedBufferSize b.startLsn.val lsn.val) data).Inv
      (L.write lsn.val data) where
  reserved_eq := hi.reserved_eq
  available_le := hi.available_le
  window := hi.window.write hreuse hfit le_rfl hlo
  outside {i} hge := by
    have hpos : 0 < b.reservedBufferSize := by
      rw [hi.reserved_eq]
      decide
    have hle : b.reuseLsn.val ≤ lsn.val := hreuse
    refine (Ring.storeWrapped_of_ne (hi.window.start_le_hi.trans hle) (by omega) ?_).trans
      (hi.outside hge)
    intro j _
    have := Ring.slot_lt (N := b.reservedBufferSize) (s := b.startLsn.val) (a := lsn.val + j) hpos
    exact (this.trans_le hge).ne

theorem Inv.raise (hi : b.Inv L) (newLsn : LSN) : (b.incUpdateReadableBeginLsn' newLsn).Inv L where
  reserved_eq := hi.reserved_eq
  available_le := hi.available_le
  window := hi.window.raise (le_max_left b.readableBeginLsn newLsn)
  outside := hi.outside

/-- The readable part is never longer than the buffer. -/
theorem Inv.readableSize_eq (hi : b.Inv L) {lsn : LSN} (hlo : b.readableBeginLsn ≤ lsn)
    (hlt : lsn < b.reuseLsn) : b.reuseLsn.sub lsn = (b.reuseLsn.val - lsn.val : Nat) := by
  have hle : b.readableBeginLsn.val ≤ lsn.val := hlo
  have hwin := hi.window.hi_le
  have hres : b.reservedBufferSize = 2 ^ 23 := hi.reserved_eq
  exact LSN.sub_of_le hlt.le (by omega)

theorem Inv.step {s s' : LogGroupBuffer × Log UInt8} (hi : s.1.Inv s.2) (h : Step s s') :
    s'.1.Inv s'.2 := by
  have hstart : s.1.startLsn ≤ s.1.reuseLsn := hi.window.start_le_hi
  have havail := hi.available_le
  cases h with
  | @fill b b' L lsn data hlen hreuse h =>
    simp only [LogGroupBuffer.fill] at h
    split_ifs at h with h1 h2
    obtain ⟨pos, hpos, h⟩ := ObResult.bind_eq_ok.mp h
    obtain ⟨hend, hfit, rfl⟩ := checkFill_ok hstart hlen hpos
    have hlo := b.le_genReadableBeginLsnForFilling (lsn.add data.length)
    rw [← ObResult.pure_eq_ok.mp h]
    refine (hi.raise _).fill' hreuse (hfit.trans (Nat.add_le_add_left havail _)) ?_
    show _ ≤ (max b.readableBeginLsn _).val + b.reservedBufferSize
    rw [val_max, ← hend]
    omega
  | @fillPaddingBody b b' L lsn data logBodySize hlen hdata hreuse h =>
    simp only [LogGroupBuffer.fillPaddingBody] at h
    split_ifs at h with h1 h2
    obtain ⟨pos, hpos, h⟩ := ObResult.bind_eq_ok.mp h
    obtain ⟨hend, hfit, rfl⟩ := checkFill_ok hstart hlen hpos
    have hlo := b.le_genReadableBeginLsnForFilling (lsn.add logBodySize)
    have hlo' : lsn.val + logBodySize ≤ (max b.readableBeginLsn
        (b.genReadableBeginLsnForFilling (lsn.add logBodySize))).val + b.reservedBufferSize := by
      rw [val_max, ← hend]
      omega
    have hfit' := hfit.trans (Nat.add_le_add_left havail _)
    rw [← ObResult.pure_eq_ok.mp h]
    -- the zeros first, then the valid data at their beginning
    have hzero := @Inv.fill' _ _ (hi.raise (b.genReadableBeginLsnForFilling
      (lsn.add logBodySize))) lsn (List.replicate logBodySize paddingLogContentChar) hreuse
      (by rwa [List.length_replicate]) (by rwa [List.length_replicate])
    refine hzero.fill' hreuse ?_ ?_
    · exact (Nat.add_le_add_left hdata _).trans hfit'
    · exact (Nat.add_le_add_left hdata _).trans hlo'
  | @incUpdateReuseLsn b b' L newReuseLsn hfilled h =>
    unfold LogGroupBuffer.incUpdateReuseLsn at h
    split_ifs at h with h1 h2
    · rw [← Except.ok.inj h]
      exact ⟨hi.reserved_eq, hi.available_le,
        hi.window.advance h2.le fun x hlo hx hx' => hfilled x hx hx' hlo, hi.outside⟩
    · rwa [← Except.ok.inj h]
  | @incUpdateReadableBeginLsn b b' L newLsn h =>
    unfold LogGroupBuffer.incUpdateReadableBeginLsn at h
    split_ifs at h with h1
    rw [← Except.ok.inj h]
    exact hi.raise newLsn
  | @truncate b b' L newLsn h =>
    unfold LogGroupBuffer.truncate at h
    split_ifs at h with h1 h2
    rw [← Except.ok.inj h]
    have hwin := hi.window.truncate (n := newLsn.val) (not_lt.mp h2)
    rw [← val_max] at hwin
    exact ⟨hi.reserved_eq, hi.available_le, hwin, hi.outside⟩
  | readData h => exact hi
  | @toLeader b b' L h =>
    unfold LogGroupBuffer.toLeader at h
    split_ifs at h with h1
    rw [← Except.ok.inj h]
    exact ⟨hi.reserved_eq, hi.reserved_eq.ge, hi.window, hi.outside⟩
  | @toFollower b b' L h =>
    unfold LogGroupBuffer.toFollower at h
    split_ifs at h with h1
    rw [← Except.ok.inj h]
    exact ⟨hi.reserved_eq, hi.reserved_eq.ge, hi.window, hi.outside⟩

/-- Every run from `init` keeps the invariant of the buffer. -/
theorem run_inv {startLsn : LSN} {b0 : LogGroupBuffer} (hinit : reset.init startLsn = .ok b0)
    (hrun : Relation.ReflTransGen Step (b0, Log.empty) (b, L)) : b.Inv L := by
  suffices h : ∀ s, Relation.ReflTransGen Step (b0, Log.empty) s → s.1.Inv s.2 from h _ hrun
  intro s hs
  induction hs with
  | refl => exact init_inv hinit
  | tail _ hstep ih => exact ih.step hstep

/-- What `read_data` copies out. -/
theorem Inv.readData (hi : b.Inv L) {lsn : LSN} {n : Int} {bytes : List UInt8}
    (h : b.readData lsn n = .ok bytes) :
    bytes.length ≤ n ∧ (bytes ≠ [] → lsn.val + bytes.length ≤ b.reuseLsn.val) ∧
      ∀ i, i < bytes.length → bytes[i]? = L (lsn.val + i) := by
  rw [LogGroupBuffer.readData] at h
  by_cases harg : (!lsn.isValid || decide (n ≤ 0)) = true
  · rw [if_pos harg] at h
    cases h
  have hn : 0 < n := by
    simp only [Bool.or_eq_true, decide_eq_true_eq, not_or] at harg
    omega
  rw [if_neg harg] at h
  obtain ⟨pos, hpos, h⟩ := ObResult.bind_eq_ok.mp h
  obtain ⟨-, -, rfl⟩ := getBufferPos_ok hpos
  split_ifs at h with hlo hreuse
  · have hlo' : b.readableBeginLsn.val ≤ lsn.val := not_lt.mp hlo
    have hlt : lsn.val < b.reuseLsn.val := hreuse
    rw [hi.readableSize_eq (not_lt.mp hlo) hreuse] at h
    rw [← ObResult.pure_eq_ok.mp h, Ring.length_loadWrapped]
    refine ⟨by omega, fun _ => by omega, fun i hlen => ?_⟩
    exact hi.window.loadWrapped_eq (.inl hlo') (fun x hx hx' => hi.window.filled (by omega)
      (by omega)) hlen
  · rw [← ObResult.pure_eq_ok.mp h]
    exact ⟨hn.le, fun hne => absurd rfl hne, fun i hlen => absurd hlen (Nat.not_lt_zero _)⟩

end Steps

/-! ### Reading -/

/-- After any run, `read_data` and `get_log_buf` return bytes of the log, and `get_log_buf` of the
whole length asked for. -/
theorem reads_logged_bytes {startLsn : LSN} {b₀ b : LogGroupBuffer} {L : Log UInt8}
    (hinit : reset.init startLsn = .ok b₀)
    (hrun : Relation.ReflTransGen Step (b₀, Log.empty) (b, L)) :
    (∀ lsn n bytes, b.readData lsn n = .ok bytes →
      bytes.length ≤ n ∧ (bytes ≠ [] → lsn.val + bytes.length ≤ b.reuseLsn.val) ∧
      ∀ i, i < bytes.length → bytes[i]? = L (lsn.val + i)) ∧
    (∀ lsn len buf, b.getLogBuf lsn len = .ok buf →
      (buf.bytes b.dataBuf).length = len ∧
      (len ≤ b.reservedBufferSize → ∀ i, i < len → (buf.bytes b.dataBuf)[i]? =
        some (b.dataBuf ((lsn.val + i - b.startLsn.val) % b.reservedBufferSize))) ∧
      ((b.readableBeginLsn ≤ lsn ∨ b.reuseLsn ≤ lsn) →
        (∀ x, lsn.val ≤ x → x < lsn.val + len → L x ≠ none) →
        ∀ i, i < len → (buf.bytes b.dataBuf)[i]? = L (lsn.val + i))) := by
  have hi := run_inv hinit hrun
  refine ⟨fun lsn n bytes h => hi.readData h, fun lsn len buf h => ?_⟩
  obtain ⟨hle, hbytes⟩ := bytes_getLogBuf h
  rw [hbytes]
  refine ⟨Ring.length_loadWrapped _ _ _, fun hlen i hi' => ?_, fun hlo hmem i hi' => ?_⟩
  · rw [Ring.loadWrapped_slot hle hlen]
    simp [hi', Ring.slot]
  · exact hi.window.loadWrapped_eq hlo hmem hi'

/-- Three bytes filled in and released, and two of them read back. -/
theorem reads_logged_bytes_three :
    ∃ b₀ b L, reset.init LSN.initial = .ok b₀ ∧
      Relation.ReflTransGen Step (b₀, Log.empty) (b, L) ∧
      b.readData (LSN.ofNat 1) 10 = .ok [8, 9] ∧
      ∀ i, i < [8, 9].length → ([8, 9] : List UInt8)[i]? = L (1 + i) := by
  let b₀ : LogGroupBuffer := ⟨.initial, .initial, .initial, 2 ^ 23, 2 ^ 23, fun _ => 0, true⟩
  have hinit : reset.init LSN.initial = .ok b₀ := rfl
  have hpos : b₀.checkFill LSN.initial (LSN.initial.add 3) = .ok 0 := by decide
  let b₁ := (b₀.incUpdateReadableBeginLsn' (b₀.genReadableBeginLsnForFilling
    (LSN.initial.add 3))).fill' 0 [7, 8, 9]
  have hfill := @Step.fill b₀ b₁ Log.empty LSN.initial [7, 8, 9] (by decide) le_rfl
    (fill_eq rfl rfl rfl hpos)
  have hfilled : ∀ x, x < 3 → (Log.empty.write 0 [7, 8, 9] : Log UInt8) x ≠ none := by
    intro x hx
    rw [Log.write_of_mem ⟨Nat.zero_le x, by simpa using hx⟩]
    simpa using hx
  have hreuse := @Step.incUpdateReuseLsn b₁ { b₁ with reuseLsn := LSN.ofNat 3 } _ (LSN.ofNat 3)
    (fun x _ hx _ => hfilled x hx) rfl
  have hrun := (Relation.ReflTransGen.single hfill).tail hreuse
  exact ⟨b₀, _, _, hinit, hrun, by decide,
    ((reads_logged_bytes hinit hrun).1 (LSN.ofNat 1) 10 [8, 9] (by decide)).2.2⟩

/-- A read beyond `reuse_lsn_` succeeds with no bytes. -/
theorem reads_nothing_beyond_reuse :
    ∃ b, reset.init LSN.initial = .ok b ∧ b.readData (LSN.ofNat 5) 10 = .ok [] ∧
      ¬ (LSN.ofNat 5).val + ([] : List UInt8).length ≤ b.reuseLsn.val :=
  ⟨_, rfl, rfl, by decide⟩

/-! ### Safety of the memory, and admission -/

/-- **No write outside of the memory**: whatever was filled, the cells at and beyond the reserved
size are as `init` left them. -/
theorem dataBuf_outside {startLsn : LSN} {b0 b : LogGroupBuffer} {L : Log UInt8}
    (hinit : reset.init startLsn = .ok b0)
    (hrun : Relation.ReflTransGen Step (b0, Log.empty) (b, L)) {i : Nat}
    (h : followerDefaultGroupBufferSize ≤ i) : b.dataBuf i = 0 := by
  have hi := run_inv hinit hrun
  exact hi.outside (hi.reserved_eq.trans_le h)

/-- A log that wraps around leaves the memory behind the buffer. -/
theorem dataBuf_outside_wrapped : ∃ b₀ b L, reset.init LSN.initial = .ok b₀ ∧
    Relation.ReflTransGen Step (b₀, Log.empty) (b, L) ∧ b.dataBuf (2 ^ 23 - 1) = 7 ∧
    b.dataBuf 0 = 8 ∧ b.dataBuf followerDefaultGroupBufferSize = 0 := by
  let b₀ : LogGroupBuffer := ⟨.initial, .initial, .initial, 2 ^ 23, 2 ^ 23, fun _ => 0, true⟩
  have hinit : reset.init LSN.initial = .ok b₀ := rfl
  -- the log begins at the last byte of the memory
  let lsn := LSN.ofNat (2 ^ 23 - 1)
  let b₁ := { b₀ with reuseLsn := lsn, readableBeginLsn := lsn }
  have htruncate := @Step.truncate b₀ b₁ Log.empty lsn rfl
  have hpos : b₁.checkFill lsn (lsn.add 3) = .ok (2 ^ 23 - 1) := by decide
  have hfill := @Step.fill b₁ _ (Log.empty.truncate lsn.val) lsn [7, 8, 9] (by decide) le_rfl
    (fill_eq rfl rfl rfl hpos)
  have hrun := (Relation.ReflTransGen.single htruncate).tail hfill
  exact ⟨b₀, _, _, hinit, hrun, by decide, by decide, dataBuf_outside hinit hrun le_rfl⟩

/-- **Admission**: a log that `can_handle_new_log` lets in, and that is not over already, can be
filled in. -/
theorem fill_ok_of_canHandleNewLog {b : LogGroupBuffer} {lsn refReuseLsn : LSN}
    {data : List UInt8} (h : b.canHandleNewLog lsn data.length refReuseLsn = true)
    (hreuse : b.reuseLsn < lsn.add data.length) (hdiff : lsn.val - b.startLsn.val < 2 ^ 63)
    (havail : b.reuseLsn.val + b.availableBufferSize < 2 ^ 64) :
    ∃ b', b.fill lsn data = .ok b' := by
  simp only [canHandleNewLog, Bool.and_eq_true, decide_eq_true_eq, Bool.not_eq_true',
    decide_eq_false_iff_not] at h
  obtain ⟨⟨⟨⟨⟨hinited, hvalid⟩, hlen⟩, -⟩, hstart⟩, hfit⟩ := h
  have hempty : data.isEmpty = false := by
    cases data with
    | nil => exact absurd hlen (Nat.not_lt_zero _)
    | cons _ _ => rfl
  have hfit' : ¬ lsn.add data.length > b.reuseLsn.add b.availableBufferSize := by
    refine fun hgt => hfit (lt_of_le_of_lt ?_ hgt)
    have hmin : (min b.reuseLsn refReuseLsn).val ≤ b.reuseLsn.val :=
      min_le_left b.reuseLsn refReuseLsn
    rw [LSN.le_iff, LSN.val_add havail, LSN.val_add (by omega)]
    omega
  have hsub : ¬ lsn.sub b.startLsn < 0 := by
    rw [LSN.sub_neg_iff (not_lt.mp hstart)]
    omega
  have hcheck : b.checkFill lsn (lsn.add data.length) =
      .ok ((lsn.sub b.startLsn).toNat % b.reservedBufferSize) := by
    rw [checkFill, if_neg hstart, if_neg (not_le.mpr hreuse), if_neg hfit', getBufferPos]
    simp [hinited, hvalid, hstart, hsub]
  exact ⟨_, fill_eq hinited hvalid hempty hcheck⟩

end LogGroupBuffer

end Andl.Palf
