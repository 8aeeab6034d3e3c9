import Andl.Serialization.Equiv.Unis
import Andl.Storage.Equiv.UndoStatus
import Andl.Storage.UndoStatusSerialize

/-!
# Undo status lists survive persistence
-/

namespace Andl.Storage

open Serialization UndoStatusNodes List

/-! ### One action -/

theorem ObTxSEQ.reads_deserialize {s : ObTxSEQ} (h : s.rawVal < 2 ^ 63) :
    Reads ObTxSEQ.deserialize (leb128 (uint64 s.rawVal)) s := by
  intro mem dataLen pos hread hlen
  have hraw : IsInt64 s.rawVal := ⟨by omega, by omega⟩
  have hdecode := (readsFrom_decodeVi64 hraw).orError ObError.deserializeError mem dataLen pos
    hread hlen
  have huint : uint64 s.rawVal = s.rawVal := by
    rw [uint64]
    omega
  rw [deserialize, hdecode]
  show Except.ok ((⟨uint64 s.rawVal⟩ : ObTxSEQ), _) = _
  rw [huint]

namespace ObUndoAction

/-- The members of an action. -/
def memberBytes (u : ObUndoAction) : List UInt8 :=
  leb128 (uint64 u.undoFrom.rawVal) ++ leb128 (uint64 u.undoTo.rawVal)

/-- What is written for an action. -/
def bytes (u : ObUndoAction) : List UInt8 := unisBytes unisVersion u.memberBytes

theorem writes_serialize (u : ObUndoAction) : Writes u.serialize u.bytes :=
  writes_unisSerialize ((writes_encodeVi64 _).andThen (writes_encodeVi64 _))

theorem length_bytes (u : ObUndoAction) : (u.bytes.length : ℤ) = u.getSerializeSize := by
  rw [bytes, length_unisBytes, getSerializeSize, memberBytes, length_append, Nat.cast_add,
    ← encodedLengthVi64_eq, ← encodedLengthVi64_eq]
  rfl

theorem bytes_ne_nil (u : ObUndoAction) : u.bytes ≠ [] := by
  rw [bytes, unisBytes]
  exact append_ne_nil_of_left_ne_nil (leb128_ne_nil _) _

theorem length_memberBytes_lt (u : ObUndoAction) : u.memberBytes.length < 2 ^ 35 := by
  have hlen (v : ℤ) : (leb128 (uint64 v)).length ≤ 10 :=
    length_leb128_le (lt_trans (uint64_lt v) (by decide))
  have hfrom := hlen u.undoFrom.rawVal
  have hto := hlen u.undoTo.rawVal
  rw [memberBytes, length_append]
  omega

theorem rawVal_lt_of_isValid {u : ObUndoAction} (h : u.isValid = true) :
    u.undoFrom.rawVal < 2 ^ 63 ∧ u.undoTo.rawVal < 2 ^ 63 := by
  simp only [isValid, ObTxSEQ.isValid, Bool.and_eq_true, decide_eq_true_eq] at h
  exact ⟨h.1.1.1.2, h.1.1.2.2⟩

/-- An action is read back, whatever was in the variable before. -/
theorem reads_deserialize {u : ObUndoAction} (h : u.isValid = true) (old : ObUndoAction) :
    Reads old.deserialize u.bytes u := by
  obtain ⟨hfrom, hto⟩ := rawVal_lt_of_isValid h
  refine reads_unisDeserialize ⟨by decide, by decide⟩ u.length_memberBytes_lt ?_
  intro mem dataLen pos hread hlen
  rw [memberBytes, bytesAt_append] at hread
  rw [memberBytes, length_append] at hlen ⊢
  have hfrom' := reads_unisDecode (ObTxSEQ.reads_deserialize hfrom) (leb128_ne_nil _)
    old.undoFrom mem dataLen pos hread.1 (by omega)
  have hto' := reads_unisDecode (ObTxSEQ.reads_deserialize hto) (leb128_ne_nil _)
    old.undoTo mem dataLen _ hread.2 (by omega)
  simp only [deserialize_, hfrom', hto', bind, Except.bind, pure, Except.pure, Nat.add_assoc]

end ObUndoAction

/-! ### Nodes that are filled one after the other -/

/-- What the loop makes of the nodes. -/
def appendAll (curNode : Bool) (nodes : List ObUndoStatusNode) :
    List ObUndoAction → List ObUndoStatusNode
  | [] => nodes
  | action :: rest => appendAll true (appendAction curNode action nodes) rest

theorem appendAll_append (curNode : Bool) (nodes : List ObUndoStatusNode)
    (as bs : List ObUndoAction) :
    appendAll curNode nodes (as ++ bs) =
      appendAll (curNode || !as.isEmpty) (appendAll curNode nodes as) bs := by
  induction as generalizing curNode nodes with
  | nil => rw [nil_append, appendAll, isEmpty_nil, Bool.not_true, Bool.or_false]
  | cons a as ih =>
    rw [cons_append, appendAll, ih, appendAll, Bool.true_or, isEmpty_cons, Bool.not_false,
      Bool.or_true]

/-- Actions for which the head has room. -/
theorem appendAll_room {node : ObUndoStatusNode} {rest : List ObUndoStatusNode}
    {as : List ObUndoAction} (h : (node.undoActions ++ as).length ≤ txDataUndoActMaxNumPerNode) :
    appendAll true (node :: rest) as = ⟨node.undoActions ++ as, h⟩ :: rest := by
  induction as generalizing node with
  | nil =>
    rw [appendAll]
    exact congrArg (· :: rest) (ObUndoStatusNode.ext (append_nil _).symm)
  | cons a as ih =>
    have hroom : node.undoActions.length < txDataUndoActMaxNumPerNode := by
      rw [length_append, length_cons] at h
      omega
    rw [appendAll, appendAction, dif_pos ⟨rfl, hroom⟩, ih]
    · congr 2
      rw [ObUndoStatusNode.push, append_assoc, singleton_append]
    · rw [ObUndoStatusNode.push, append_assoc, singleton_append]
      exact h

/-- The actions in the order in which they were added. -/
def inOrder (nodes : List ObUndoStatusNode) : List ObUndoAction :=
  nodes.reverse.flatMap (·.undoActions)

theorem inOrder_cons (node : ObUndoStatusNode) (rest : List ObUndoStatusNode) :
    inOrder (node :: rest) = inOrder rest ++ node.undoActions := by
  rw [inOrder, reverse_cons, flatMap_append, flatMap_singleton]
  rfl

/-- An action for which there is no room gets a new node. -/
theorem appendAction_full {curNode : Bool} {a : ObUndoAction} {nodes : List ObUndoStatusNode}
    (h : ∀ head ∈ nodes.head?, head.undoActions.length = txDataUndoActMaxNumPerNode) :
    appendAction curNode a nodes = ObUndoStatusNode.empty.push a (by decide) :: nodes := by
  cases nodes with
  | nil => rfl
  | cons head rest =>
    have hfull := h head rfl
    rw [appendAction, dif_neg (by omega)]

/-- Appending the actions in order rebuilds the nodes. -/
theorem appendAll_inOrder {nodes : List ObUndoStatusNode}
    (hnonempty : ∀ node ∈ nodes, node.undoActions ≠ [])
    (hfull : ∀ node ∈ nodes.tail, node.undoActions.length = txDataUndoActMaxNumPerNode) :
    appendAll false [] (inOrder nodes) = nodes := by
  induction nodes with
  | nil => rfl
  | cons node rest ih =>
    have hrest := ih (fun m hm => hnonempty m (mem_cons_of_mem _ hm))
      fun m hm => hfull m (mem_of_mem_tail hm)
    have hhead : ∀ head ∈ rest.head?, head.undoActions.length = txDataUndoActMaxNumPerNode :=
      fun head hhead => hfull head (mem_of_mem_head? hhead)
    rw [inOrder_cons, appendAll_append, hrest]
    obtain ⟨actions, hsize⟩ := node
    cases actions with
    | nil => exact absurd rfl (hnonempty _ mem_cons_self)
    | cons a as =>
      rw [appendAll, appendAction_full hhead]
      exact appendAll_room hsize

/-! ### The loop -/

/-- The loop appends the actions one after the other. -/
theorem deserializeLoop_eq {mem : Mem} {dataLen : ℕ} {as : List ObUndoAction}
    (hvalid : ∀ a ∈ as, a.isValid = true) {rounds pos : ℕ} (nodes : List ObUndoStatusNode)
    (curNode : Bool) (old : ObUndoAction)
    (hread : bytesAt mem pos (as.flatMap ObUndoAction.bytes).length = as.flatMap ObUndoAction.bytes)
    (hend : pos + (as.flatMap ObUndoAction.bytes).length = dataLen)
    (hrounds : dataLen ≤ pos + rounds) :
    deserializeLoop mem dataLen rounds nodes curNode old pos =
      .ok (appendAll curNode nodes as, dataLen) := by
  induction as generalizing rounds pos nodes curNode old with
  | nil =>
    rw [flatMap_nil, length_nil, Nat.add_zero] at hend
    cases rounds with
    | zero => rw [deserializeLoop, hend, appendAll]
    | succ rounds => rw [deserializeLoop, if_neg (by omega), hend, appendAll]
  | cons a as ih =>
    have hpos := length_pos_iff.mpr a.bytes_ne_nil
    rw [flatMap_cons, length_append] at hend
    rw [flatMap_cons, bytesAt_append] at hread
    cases rounds with
    | zero => omega
    | succ rounds =>
      rw [deserializeLoop, if_pos (by omega),
        reads_unisDecode (ObUndoAction.reads_deserialize (hvalid a mem_cons_self) old)
          a.bytes_ne_nil old mem dataLen pos hread.1 (by omega)]
      exact ih (fun b hb => hvalid b (mem_cons_of_mem _ hb)) _ _ _ hread.2 (by omega)
        (by omega)

/-! ### Lists -/

namespace UndoStatusNodes

/-- What `serialize_` writes. -/
def bodyBytes (l : UndoStatusNodes) : List UInt8 :=
  leb128 (uint32 l.undoNodeCnt) ++ (inOrder l.nodes).flatMap ObUndoAction.bytes

/-- What `serialize` writes. -/
def bytes (l : UndoStatusNodes) : List UInt8 :=
  leb128 (uint64 unisVersion) ++ (leb128 (uint64 l.getSerializeSize_) ++ l.bodyBytes)

theorem length_flatMap_bytes (as : List ObUndoAction) :
    ((as.flatMap ObUndoAction.bytes).length : ℤ) = (as.map (·.getSerializeSize)).sum := by
  induction as with
  | nil => rfl
  | cons a as ih =>
    rw [flatMap_cons, length_append, Nat.cast_add, ih, a.length_bytes, map_cons,
      sum_cons]

/-- The actions are written in another order than they are counted. -/
theorem length_inOrder_bytes (nodes : List ObUndoStatusNode) :
    (((inOrder nodes).flatMap ObUndoAction.bytes).length : ℤ) =
      (nodes.map fun node => (node.undoActions.map (·.getSerializeSize)).sum).sum := by
  induction nodes with
  | nil => rfl
  | cons node rest ih =>
    rw [inOrder_cons, flatMap_append, length_append, Nat.cast_add, ih,
      length_flatMap_bytes, map_cons, sum_cons, Int.add_comm]

theorem length_bodyBytes (l : UndoStatusNodes) :
    (l.bodyBytes.length : ℤ) = l.getSerializeSize_ := by
  rw [bodyBytes, length_append, Nat.cast_add, length_inOrder_bytes, ← encodedLengthVi32_eq,
    getSerializeSize_]

theorem length_bytes (l : UndoStatusNodes) : (l.bytes.length : ℤ) = l.getSerializeSize := by
  rw [bytes, length_append, length_append, Nat.cast_add, Nat.cast_add, length_bodyBytes,
    ← encodedLengthVi64_eq, ← encodedLengthVi64_eq, getSerializeSize, Int.add_assoc]

theorem writes_serialize_ (l : UndoStatusNodes) : Writes l.serialize_ l.bodyBytes := by
  rw [bodyBytes, inOrder, flatMap_assoc]
  exact (writes_encodeVi32 _).andThen (Writes.all fun node _ => Writes.all fun a _ =>
    a.writes_serialize)

/-- **Writing a list** takes the bytes that `get_serialize_size` counts. -/
theorem writes_serialize (l : UndoStatusNodes) : Writes l.serialize l.bytes := by
  intro bufLen s hroom
  have hpos : 0 < l.bytes.length :=
    length_pos_iff.mpr (append_ne_nil_of_left_ne_nil (leb128_ne_nil _) _)
  rw [serialize, if_neg (by omega)]
  exact (writes_encodeVi64 _).andThen ((writes_encodeVi64 _).andThen l.writes_serialize_)
    bufLen s hroom

/-- What `deserialize_` makes of the body of a packed list. -/
theorem deserialize_eq {l : UndoStatusNodes} (hpacked : Packed l)
    (hvalid : ∀ a ∈ l.actions, a.isValid = true) (hcnt : l.undoNodeCnt < 2 ^ 31) {mem : Mem}
    (hread : bytesAt mem 0 l.bodyBytes.length = l.bodyBytes) :
    empty.deserialize_ mem l.bodyBytes.length 0 = .ok (l, l.bodyBytes.length) := by
  have hint32 : IsInt32 l.undoNodeCnt := by
    have := hpacked.cnt
    exact ⟨by omega, hcnt⟩
  have hlength : l.bodyBytes.length = (leb128 (uint32 l.undoNodeCnt)).length +
      ((inOrder l.nodes).flatMap ObUndoAction.bytes).length := by
    rw [bodyBytes, length_append]
  have hread' := hread
  rw [bodyBytes, bytesAt_append, Nat.zero_add] at hread'
  have hcntRead := reads_unisDecode
    ((readsFrom_decodeVi32 hint32).orError ObError.deserializeError) (leb128_ne_nil _)
    empty.undoNodeCnt mem l.bodyBytes.length 0 hread'.1 (by omega)
  have hvalid' : ∀ a ∈ inOrder l.nodes, a.isValid = true := by
    intro a ha
    rw [inOrder, mem_flatMap] at ha
    obtain ⟨node, hnode, ha⟩ := ha
    exact hvalid a (mem_flatMap.mpr ⟨node, mem_reverse.mp hnode, ha⟩)
  have hloop := deserializeLoop_eq hvalid' empty.nodes false .reset hread'.2 hlength.symm
    (show l.bodyBytes.length ≤ (leb128 (uint32 l.undoNodeCnt)).length +
      (l.bodyBytes.length - (leb128 (uint32 l.undoNodeCnt)).length) by omega)
  rw [show empty.nodes = [] from rfl, appendAll_inOrder hpacked.nonempty hpacked.full] at hloop
  simp only [deserialize_, hcntRead, Nat.zero_add, bind, Except.bind]
  rw [show empty.nodes = [] from rfl, hloop]
  rfl

/-- `deserialize` reads the bytes of a packed list back. -/
theorem reads_deserialize {l : UndoStatusNodes} (hpacked : Packed l)
    (hvalid : ∀ a ∈ l.actions, a.isValid = true) (hcnt : l.undoNodeCnt < 2 ^ 31)
    (hlen : l.getSerializeSize_ < 2 ^ 63) : Reads empty.deserialize l.bytes l := by
  intro mem dataLen pos hread hroom
  have hsize := l.length_bodyBytes
  rw [bytes, length_append, length_append] at hroom ⊢
  rw [bytes, bytesAt_append, bytesAt_append] at hread
  obtain ⟨hver, hlenBytes, hbody⟩ := hread
  have hversion : IsInt64 unisVersion := ⟨by decide, by decide⟩
  have hver' := (readsFrom_decodeVi64 hversion).orError ObError.deserializeError mem dataLen pos
    hver (by omega)
  have hlen' := (readsFrom_decodeVi64 ⟨by omega, hlen⟩).orError ObError.deserializeError mem
    dataLen _ hlenBytes (by omega)
  have hbody' : empty.deserialize_ (fun i => mem (pos + (leb128 (uint64 unisVersion)).length +
      (leb128 (uint64 l.getSerializeSize_)).length + i)) l.bodyBytes.length 0 = _ :=
    deserialize_eq hpacked hvalid hcnt (by rw [bytesAt_shift]; exact hbody)
  simp only [deserialize, hver', hlen', bind, Except.bind, ne_eq, not_true_eq_false, if_false]
  rw [if_neg (by omega), if_neg (by push_cast; omega), ← hsize, Int.toNat_natCast, hsize, hbody']
  refine congrArg (fun p => Except.ok (l, p)) ?_
  omega

theorem nodesEqual_refl (nodes : List ObUndoStatusNode) : nodesEqual nodes nodes = true := by
  induction nodes with
  | nil => rfl
  | cons node rest ih =>
    rw [nodesEqual, ih, zip_eq_zipWith, zipWith_self]
    simp

end UndoStatusNodes

/-- What `serialize` writes within its size, `deserialize` reads as a list with the same nodes and
the same answers of `is_contain`. -/
theorem undoStatus_roundTrip {added : List ObUndoAction} {l : UndoStatusNodes}
    (hrun : Run UndoStep .empty added l) (hcnt : l.undoNodeCnt < 2 ^ 31) {bufLen : ℕ} (s : Sink)
    (hbuf : (bufLen : ℤ) = s.pos + l.getSerializeSize) (hbufLen : bufLen < 2 ^ 63) :
    ∃ s', l.serialize bufLen s = (.ok (), s') ∧ s'.pos = bufLen ∧
      (∀ i, i < s.pos ∨ bufLen ≤ i → s'.mem i = s.mem i) ∧
      ∀ mem dataLen, (∀ i, s.pos ≤ i → i < bufLen → mem i = s'.mem i) → bufLen ≤ dataLen →
        ∃ l', UndoStatusNodes.empty.deserialize mem dataLen s.pos = .ok (l', bufLen) ∧
          l'.undoNodeCnt = l.undoNodeCnt ∧
          l'.nodes.map (·.undoActions) = l.nodes.map (·.undoActions) ∧
          nodesEqual l.nodes l'.nodes = true ∧ ∀ seqNo, l'.isContain seqNo = l.isContain seqNo := by
  have h := undoneBy_of_run hrun
  have hlength := l.length_bytes
  have hpos : s.pos + l.bytes.length = bufLen := by omega
  have hsize : l.getSerializeSize_ < 2 ^ 63 := by
    have hbody := l.length_bodyBytes
    have hsplit : l.bodyBytes.length ≤ l.bytes.length := by
      rw [UndoStatusNodes.bytes, length_append, length_append]
      omega
    omega
  refine ⟨s.puts l.bytes, l.writes_serialize bufLen s hpos.le, by rw [Sink.pos_puts, hpos],
    fun i hi => s.mem_puts_of_outside l.bytes (by rwa [hpos]), fun mem dataLen hmem hdata => ?_⟩
  have hread : bytesAt mem s.pos l.bytes.length = l.bytes := by
    exact (bytesAt_congr fun i hlo hhi => hmem i hlo (by omega)).trans (s.bytesAt_puts l.bytes)
  have hl := reads_deserialize h.packed h.valid hcnt hsize mem dataLen s.pos hread (by omega)
  rw [hpos] at hl
  exact ⟨l, hl, rfl, rfl, nodesEqual_refl l.nodes, fun _ => rfl⟩

theorem undoStatus_roundTrip_twoNodes :
    ∃ l added bufLen s', Run UndoStep .empty added l ∧
      l.nodes.map (·.undoActions.length) = [1, 7] ∧
      l.serialize bufLen ⟨fun _ => 0, 2⟩ = (.ok (), s') ∧
      ∃ l', UndoStatusNodes.empty.deserialize s'.mem bufLen 2 = .ok (l', bufLen) ∧
        nodesEqual l.nodes l'.nodes = true ∧ l'.isContain ⟨4⟩ = true := by
  have hadd (l : UndoStatusNodes) (n : ℕ) (h : (⟨⟨n + 1⟩, ⟨n⟩⟩ : ObUndoAction).isValid = true)
      (hok : (addUndoAction l ⟨⟨⟨n + 1⟩, ⟨n⟩⟩, true, false⟩).1 = .ok ()) :
      UndoStep l [⟨⟨n + 1⟩, ⟨n⟩⟩] (addUndoAction l ⟨⟨⟨n + 1⟩, ⟨n⟩⟩, true, false⟩).2.1 :=
    .add _ h (Prod.ext hok rfl)
  -- eight actions, none of which contains another one
  have hrun := (((((((Run.single (hadd .empty 1 rfl rfl)).snoc (hadd _ 3 rfl rfl)).snoc
    (hadd _ 5 rfl rfl)).snoc (hadd _ 7 rfl rfl)).snoc (hadd _ 9 rfl rfl)).snoc
    (hadd _ 11 rfl rfl)).snoc (hadd _ 13 rfl rfl)).snoc (hadd _ 15 rfl rfl)
  obtain ⟨s', hserialize, -, -, hread⟩ := undoStatus_roundTrip hrun (by decide) ⟨fun _ => 0, 2⟩
    (show ((69 : ℕ) : ℤ) = _ by decide) (by decide)
  obtain ⟨l', hl', -, -, hequal, hcontain⟩ := hread s'.mem _ (fun _ _ _ => rfl) le_rfl
  exact ⟨_, _, _, s', hrun, rfl, hserialize, l', hl', hequal, (hcontain ⟨4⟩).trans rfl⟩

/-! ### Restarts -/

/-- An action is added, or a restart reads back the list that was written. -/
inductive RestartStep : UndoStatusNodes → List ObUndoAction → UndoStatusNodes → Prop
  | undo {l l' : UndoStatusNodes} {es : List ObUndoAction} (h : UndoStep l es l') :
      RestartStep l es l'
  | restart {l l' : UndoStatusNodes} {bufLen pos : ℕ} {s s' : Sink}
      (hcnt : l.undoNodeCnt < 2 ^ 31) (hbuf : (bufLen : ℤ) = s.pos + l.getSerializeSize)
      (hbufLen : bufLen < 2 ^ 63) (hwrite : l.serialize bufLen s = (.ok (), s'))
      (hread : UndoStatusNodes.empty.deserialize s'.mem bufLen s.pos = .ok (l', pos)) :
      RestartStep l [] l'

theorem UndoneBy.restartStep {added es : List ObUndoAction} {l l' : UndoStatusNodes}
    (h : UndoneBy added l) (hstep : RestartStep l es l') : UndoneBy (added ++ es) l' := by
  cases hstep with
  | undo hstep => exact h.step hstep
  | @restart _ bufLen pos s s' hcnt hbuf hbufLen hwrite hread =>
    have hpos : s.pos + l.bytes.length = bufLen := by
      have := l.length_bytes
      omega
    have hsize : l.getSerializeSize_ < 2 ^ 63 := by
      have := l.length_bodyBytes
      have : l.bodyBytes.length ≤ l.bytes.length := by
        rw [UndoStatusNodes.bytes, length_append, length_append]
        omega
      omega
    rw [l.writes_serialize bufLen s hpos.le] at hwrite
    cases hwrite
    rw [reads_deserialize h.packed h.valid hcnt hsize _ bufLen s.pos (s.bytesAt_puts l.bytes)
      hpos.le] at hread
    cases hread
    rwa [append_nil]

/-- **Replicas agree on what is undone**, in whatever order, how often and between which restarts
they added the same actions. -/
theorem replicas_agree {added added' : List ObUndoAction} {l l' : UndoStatusNodes}
    (hrun : Run RestartStep .empty added l) (hrun' : Run RestartStep .empty added' l')
    (hsame : ∀ a, a ∈ added ↔ a ∈ added') (seqNo : ObTxSEQ) :
    l.isContain seqNo = l'.isContain seqNo := by
  have hinv {es : List ObUndoAction} {l : UndoStatusNodes} (hrun : Run RestartStep .empty es l) :=
    hrun.invariant UndoneBy (fun _ _ _ _ h hstep => h.restartStep hstep) (undoneBy_of_run .nil)
  rw [Bool.eq_iff_iff, (hinv hrun).contain, (hinv hrun').contain]
  simp only [hsame]

/-- Every list can be written and read back, if its size is a signed integer. -/
theorem UndoneBy.exists_restart {added : List ObUndoAction} {l : UndoStatusNodes}
    (h : UndoneBy added l) (hcnt : l.undoNodeCnt < 2 ^ 31) (hsize : l.getSerializeSize < 2 ^ 63) :
    RestartStep l [] l := by
  have hlength := l.length_bytes
  have hbody := l.length_bodyBytes
  have hsplit : l.bodyBytes.length ≤ l.bytes.length := by
    rw [UndoStatusNodes.bytes, length_append, length_append]
    omega
  refine @RestartStep.restart l l l.bytes.length l.bytes.length ⟨fun _ => 0, 0⟩ _ hcnt
    (by dsimp only; omega) (by omega)
    (l.writes_serialize _ _ (by dsimp only; omega)) ?_
  have hread := reads_deserialize h.packed h.valid hcnt (by omega) _ l.bytes.length 0
    (Sink.bytesAt_puts ⟨fun _ => 0, 0⟩ l.bytes) (by omega)
  rwa [Nat.zero_add] at hread

theorem replicas_agree_restarted : ∃ l l',
    Run RestartStep .empty [⟨⟨5⟩, ⟨3⟩⟩, ⟨⟨9⟩, ⟨7⟩⟩] l ∧
    Run RestartStep .empty [⟨⟨9⟩, ⟨7⟩⟩, ⟨⟨5⟩, ⟨3⟩⟩, ⟨⟨9⟩, ⟨7⟩⟩] l' ∧
    l.isContain ⟨4⟩ = l'.isContain ⟨4⟩ := by
  have h5 : RestartStep .empty [⟨⟨5⟩, ⟨3⟩⟩] undoneFive :=
    .undo (.add _ rfl addUndoAction_undoneFive)
  have hrestart : RestartStep undoneFive [] undoneFive :=
    (undoneBy_of_run (.single (.add _ rfl addUndoAction_undoneFive))).exists_restart
      (by decide) (by decide)
  have hrun := ((Run.single h5).snoc hrestart).snoc
    (.undo (.add ⟨⟨⟨9⟩, ⟨7⟩⟩, true, true⟩ rfl rfl))
  have h9 : RestartStep .empty [⟨⟨9⟩, ⟨7⟩⟩] _ := .undo (.add ⟨_, true, true⟩ rfl rfl)
  have hrun' := ((Run.single h9).snoc (.undo (.add ⟨⟨⟨5⟩, ⟨3⟩⟩, true, true⟩ rfl rfl))).snoc
    (.undo (.add ⟨⟨⟨9⟩, ⟨7⟩⟩, true, true⟩ rfl rfl))
  exact ⟨_, _, hrun, hrun', replicas_agree hrun hrun' (by simp) _⟩

end Andl.Storage
