import ACENetwork.BitTorrent.Common
import ACENetwork.Library.Grouping

/-!
# Output of UDP connections

`Net_AsynchUDPConnectionBase_T::handle_output` cuts the blocks of a message that are longer
than a datagram and sends the chain in groups of blocks. To cut a block it duplicates it
with all its continuations, so the continuations that it had are lost.
-/
namespace ACENetwork.Net.UDP
open BitTorrent (Fault MessageBlock)
open Library

/-- A message block of its own; data that is shared between blocks is not released with them. -/
structure Block where
  id : ℕ
  data : List UInt8
  deriving DecidableEq, Repr

def number : ℕ → List (List UInt8) → List Block
  | _, [] => []
  | next, data :: blocks => ⟨next, data⟩ :: number (next + 1) blocks

def payload (chain : List Block) : List UInt8 := (chain.map Block.data).flatten

theorem number_length (next : ℕ) (blocks : List (List UInt8)) :
    (number next blocks).length = blocks.length := by
  induction blocks generalizing next with
  | nil => rfl
  | cons data blocks ih => rw [number, List.length_cons, ih, List.length_cons]

theorem number_data (next : ℕ) (blocks : List (List UInt8)) :
    (number next blocks).map Block.data = blocks := by
  induction blocks generalizing next with
  | nil => rfl
  | cons data blocks ih => rw [number, List.map_cons, ih]

theorem number_ids (next : ℕ) (blocks : List (List UInt8)) :
    (number next blocks).map Block.id = List.range' next blocks.length := by
  induction blocks generalizing next with
  | nil => rfl
  | cons data blocks ih => rw [number, List.map_cons, ih, List.length_cons, List.range'_succ]

/-- `ACE_Message_Block::duplicate`, which duplicates the continuations, too. -/
def duplicate (next : ℕ) (chain : List Block) : List Block := number next (chain.map Block.data)

theorem duplicate_data (next : ℕ) (chain : List Block) :
    (duplicate next chain).map Block.data = chain.map Block.data := number_data _ _

theorem duplicate_length (next : ℕ) (chain : List Block) :
    (duplicate next chain).length = chain.length := by
  rw [duplicate, number_length, List.length_map]

/-- A chain that has been cut: the blocks that exist by now are those below `next`, and whether
every `duplicate` has succeeded. -/
structure Fragmented where
  chain : List Block
  next : ℕ
  complete : Bool

def Fragmented.push (b : Block) (f : Fragmented) : Fragmented := { f with chain := b :: f.chain }

/-- The first loop. `duplicates` tells which calls of `duplicate` succeed. -/
def fragment (pdu : ℕ+) (duplicates : ℕ → Bool) : ℕ → ℕ → List Block → Fragmented
  | _, next, [] => ⟨[], next, true⟩
  | calls, next, b :: rest =>
    if (pdu : ℕ) < b.data.length then
      if duplicates calls then
        -- the first block of the copy has what is behind the cut, and takes the place of `cont`
        (fragment pdu duplicates (calls + 1) (next + (rest.length + 1))
          (⟨next, b.data.drop pdu⟩ :: duplicate (next + 1) rest)).push ⟨b.id, b.data.take pdu⟩
      else ⟨b :: rest, next, false⟩
    else (fragment pdu duplicates calls next rest).push b
  termination_by _ _ chain => (payload chain).length + chain.length
  decreasing_by
    · have hpos := pdu.pos
      simp only [payload, List.map_cons, duplicate_data, duplicate_length, List.flatten_cons,
        List.length_append, List.length_cons, List.length_drop]
      omega
    · simp only [payload, List.map_cons, List.flatten_cons, List.length_append, List.length_cons]
      omega

section Fragments

def cut (pdu : ℕ+) (data : List UInt8) : List (List UInt8) :=
  if (pdu : ℕ) < data.length then data.take pdu :: cut pdu (data.drop pdu) else [data]
  termination_by data.length
  decreasing_by
    have hpos := pdu.pos
    rw [List.length_drop]
    omega

theorem cut_long {pdu : ℕ+} {data : List UInt8} (h : (pdu : ℕ) < data.length) :
    cut pdu data = data.take pdu :: cut pdu (data.drop pdu) := by
  rw [cut, if_pos h]

theorem cut_short {pdu : ℕ+} {data : List UInt8} (h : ¬ (pdu : ℕ) < data.length) :
    cut pdu data = [data] := by
  rw [cut, if_neg h]

theorem cut_flatten (pdu : ℕ+) (data : List UInt8) : (cut pdu data).flatten = data := by
  induction data using cut.induct pdu with
  | case1 data h ih => rw [cut_long h, List.flatten_cons, ih, List.take_append_drop]
  | case2 data h => rw [cut_short h, List.flatten_singleton]

theorem length_le_of_mem_cut {pdu : ℕ+} {data d : List UInt8} (h : d ∈ cut pdu data) :
    d.length ≤ pdu := by
  induction data using cut.induct pdu with
  | case1 data hlong ih =>
    rw [cut_long hlong] at h
    rcases List.mem_cons.mp h with rfl | h
    · exact List.length_take_le _ _
    · exact ih h
  | case2 data hshort =>
    rw [cut_short hshort, List.mem_singleton] at h
    subst h
    omega

def pieces (pdu : ℕ+) (blocks : List (List UInt8)) : List (List UInt8) := blocks.flatMap (cut pdu)

theorem pieces_flatten (pdu : ℕ+) (blocks : List (List UInt8)) :
    (pieces pdu blocks).flatten = blocks.flatten := by
  induction blocks with
  | nil => rfl
  | cons data blocks ih =>
    rw [pieces, List.flatMap_cons, List.flatten_append, cut_flatten, List.flatten_cons]
    exact congrArg _ ih

theorem length_le_of_mem_pieces {pdu : ℕ+} {blocks : List (List UInt8)} {d : List UInt8}
    (h : d ∈ pieces pdu blocks) : d.length ≤ pdu := by
  obtain ⟨data, -, hd⟩ := List.mem_flatMap.mp h
  exact length_le_of_mem_cut hd

def cuts (pdu : ℕ+) (blocks : List (List UInt8)) : ℕ :=
  (blocks.map fun data => (data.length - 1) / (pdu : ℕ)).sum

theorem cuts_long {pdu : ℕ+} {data : List UInt8} {blocks : List (List UInt8)}
    (h : (pdu : ℕ) < data.length) :
    cuts pdu (data :: blocks) = cuts pdu (data.drop pdu :: blocks) + 1 := by
  have hdiv : (data.length - 1) / (pdu : ℕ) = (data.length - 1 - pdu) / (pdu : ℕ) + 1 :=
    Nat.div_eq_sub_div pdu.pos (by omega)
  have hdrop : (data.drop pdu).length - 1 = data.length - 1 - pdu := by
    rw [List.length_drop]
    omega
  simp only [cuts, List.map_cons, List.sum_cons, hdrop, hdiv]
  omega

theorem cuts_short {pdu : ℕ+} {data : List UInt8} {blocks : List (List UInt8)}
    (h : ¬ (pdu : ℕ) < data.length) : cuts pdu (data :: blocks) = cuts pdu blocks := by
  have hpos := pdu.pos
  have hdiv : (data.length - 1) / (pdu : ℕ) = 0 := Nat.div_eq_of_lt (by omega)
  rw [cuts, List.map_cons, List.sum_cons, hdiv, Nat.zero_add]
  rfl

variable {pdu : ℕ+} {duplicates : ℕ → Bool} {calls next : ℕ} {b : Block} {rest : List Block}

theorem fragment_cut (hlong : (pdu : ℕ) < b.data.length) (hduplicate : duplicates calls = true) :
    fragment pdu duplicates calls next (b :: rest) =
      (fragment pdu duplicates (calls + 1) (next + (rest.length + 1))
        (⟨next, b.data.drop pdu⟩ :: duplicate (next + 1) rest)).push ⟨b.id, b.data.take pdu⟩ := by
  rw [fragment, if_pos hlong, if_pos hduplicate]

theorem fragment_failed (hlong : (pdu : ℕ) < b.data.length) (hduplicate : duplicates calls ≠ true) :
    fragment pdu duplicates calls next (b :: rest) = ⟨b :: rest, next, false⟩ := by
  rw [fragment, if_pos hlong, if_neg hduplicate]

theorem fragment_short (hshort : ¬ (pdu : ℕ) < b.data.length) :
    fragment pdu duplicates calls next (b :: rest) =
      (fragment pdu duplicates calls next rest).push b := by
  rw [fragment, if_neg hshort]

theorem fragment_complete (calls next : ℕ) (chain : List Block) :
    (fragment pdu duplicates calls next chain).complete = true ↔
      ∀ i < cuts pdu (chain.map Block.data), duplicates (calls + i) = true := by
  induction calls, next, chain using fragment.induct pdu duplicates with
  | case1 calls next => simp [fragment, cuts]
  | case2 calls next b rest hlong hduplicate ih =>
    rw [fragment_cut hlong hduplicate, List.map_cons, cuts_long hlong, Nat.forall_lt_succ_left]
    rw [List.map_cons, duplicate_data] at ih
    refine ih.trans ⟨fun h => ⟨hduplicate, fun i hi => ?_⟩, fun h i hi => ?_⟩
    · rw [Nat.add_comm i 1, ← Nat.add_assoc]
      exact h i hi
    · rw [Nat.add_assoc, Nat.add_comm 1 i]
      exact h.2 i hi
  | case3 calls next b rest hlong hduplicate =>
    rw [fragment_failed hlong hduplicate, List.map_cons, cuts_long hlong]
    exact iff_of_false Bool.false_ne_true fun h => hduplicate (h 0 (Nat.succ_pos _))
  | case4 calls next b rest hshort ih =>
    rw [fragment_short hshort, List.map_cons, cuts_short hshort]
    exact ih

theorem fragment_data (calls next : ℕ) (chain : List Block)
    (h : (fragment pdu duplicates calls next chain).complete = true) :
    (fragment pdu duplicates calls next chain).chain.map Block.data =
      pieces pdu (chain.map Block.data) := by
  induction calls, next, chain using fragment.induct pdu duplicates with
  | case1 calls next => simp [fragment, pieces]
  | case2 calls next b rest hlong hduplicate ih =>
    rw [fragment_cut hlong hduplicate] at h ⊢
    have hrest := ih h
    rw [List.map_cons, duplicate_data] at hrest
    rw [Fragmented.push, List.map_cons, hrest]
    simp only [pieces, List.map_cons, List.flatMap_cons, cut_long hlong, List.cons_append]
  | case3 calls next b rest hlong hduplicate =>
    rw [fragment_failed hlong hduplicate] at h
    cases h
  | case4 calls next b rest hshort ih =>
    rw [fragment_short hshort] at h ⊢
    rw [Fragmented.push, List.map_cons, ih h]
    simp only [pieces, List.map_cons, List.flatMap_cons, cut_short hshort, List.singleton_append]

theorem le_fragment_next (calls next : ℕ) (chain : List Block) :
    next ≤ (fragment pdu duplicates calls next chain).next := by
  induction calls, next, chain using fragment.induct pdu duplicates with
  | case1 calls next => rw [fragment]
  | case2 calls next b rest hlong hduplicate ih =>
    rw [fragment_cut hlong hduplicate]
    exact Nat.le_of_add_right_le ih
  | case3 calls next b rest hlong hduplicate => rw [fragment_failed hlong hduplicate]
  | case4 calls next b rest hshort ih =>
    rw [fragment_short hshort]
    exact ih

theorem mem_fragment_ids {id : ℕ} (calls next : ℕ) (chain : List Block)
    (h : id ∈ (fragment pdu duplicates calls next chain).chain.map Block.id) :
    id ∈ chain.map Block.id ∨ next ≤ id := by
  induction calls, next, chain using fragment.induct pdu duplicates with
  | case1 calls next => simp [fragment] at h
  | case2 calls next b rest hlong hduplicate ih =>
    rw [fragment_cut hlong hduplicate, Fragmented.push, List.map_cons] at h
    rcases List.mem_cons.mp h with rfl | h
    · exact Or.inl List.mem_cons_self
    · have hnew := ih h
      rw [List.map_cons, duplicate, number_ids, List.mem_cons, List.mem_range'_1] at hnew
      dsimp only at hnew
      exact Or.inr (by omega)
  | case3 calls next b rest hlong hduplicate =>
    rw [fragment_failed hlong hduplicate] at h
    exact Or.inl h
  | case4 calls next b rest hshort ih =>
    rw [fragment_short hshort, Fragmented.push, List.map_cons] at h
    rcases List.mem_cons.mp h with rfl | h
    · exact Or.inl List.mem_cons_self
    · exact (ih h).imp_left (List.mem_cons_of_mem _)

theorem fragment_ids (calls next : ℕ) (chain : List Block)
    (h : ∀ b ∈ chain.dropLast, b.data.length ≤ pdu) :
    (fragment pdu duplicates calls next chain).chain.map Block.id = chain.map Block.id ++
      List.range' next ((fragment pdu duplicates calls next chain).next - next) := by
  induction calls, next, chain using fragment.induct pdu duplicates with
  | case1 calls next => simp [fragment]
  | case2 calls next b rest hlong hduplicate ih =>
    cases rest with
    | cons c rest =>
      have hb := h b List.mem_cons_self
      omega
    | nil =>
      have hids := ih (by simp [duplicate, number])
      rw [fragment_cut hlong hduplicate, Fragmented.push, List.map_cons, hids]
      have hnext := @le_fragment_next pdu duplicates (calls + 1) (next + ([] : List Block).length.succ)
        (⟨next, b.data.drop pdu⟩ :: duplicate (next + 1) [])
      set f := fragment pdu duplicates (calls + 1) (next + (([] : List Block).length + 1))
        (⟨next, b.data.drop pdu⟩ :: duplicate (next + 1) [])
      have hcount : f.next - next = f.next - (next + 1) + 1 := by
        change next + 1 ≤ f.next at hnext
        omega
      simp only [hcount, List.range'_succ]
      rfl
  | case3 calls next b rest hlong hduplicate =>
    rw [fragment_failed hlong hduplicate, Nat.sub_self, List.range'_zero, List.append_nil]
  | case4 calls next b rest hshort ih =>
    have hrest : ∀ c ∈ rest.dropLast, c.data.length ≤ pdu := by
      intro c hc
      cases rest with
      | nil => cases hc
      | cons d rest => exact h c (List.mem_cons_of_mem b hc)
    rw [fragment_short hshort, Fragmented.push, List.map_cons, ih hrest, List.map_cons,
      List.cons_append]

/-- Where a block with a continuation is cut, its continuation is lost. -/
theorem fragment_loses (calls next : ℕ) (chain : List Block)
    (hcomplete : (fragment pdu duplicates calls next chain).complete = true)
    (hnodup : (chain.map Block.id).Nodup) (hnext : ∀ id ∈ chain.map Block.id, id < next)
    (hlong : ∃ b ∈ chain.dropLast, (pdu : ℕ) < b.data.length) :
    ∃ id < next, id ∉ (fragment pdu duplicates calls next chain).chain.map Block.id := by
  suffices h : ∃ id ∈ chain.map Block.id,
      id ∉ (fragment pdu duplicates calls next chain).chain.map Block.id by
    obtain ⟨id, hid, hlost⟩ := h
    exact ⟨id, hnext id hid, hlost⟩
  induction calls, next, chain using fragment.induct pdu duplicates with
  | case1 calls next => simp at hlong
  | case2 calls next b rest hb hduplicate ih =>
    cases rest with
    | nil => simp at hlong
    | cons c rest =>
      -- the blocks behind `b` are duplicates now
      have hc := hnext c.id (by simp)
      refine ⟨c.id, by simp, fun hmem => ?_⟩
      rw [fragment_cut hb hduplicate, Fragmented.push, List.map_cons] at hmem
      rcases List.mem_cons.mp hmem with heq | hmem
      · simp [heq] at hnodup
      · have hnew := mem_fragment_ids _ _ _ hmem
        rw [List.map_cons, duplicate, number_ids, List.mem_cons, List.mem_range'_1] at hnew
        dsimp only at hnew
        omega
  | case3 calls next b rest hb hduplicate =>
    rw [fragment_failed hb hduplicate] at hcomplete
    cases hcomplete
  | case4 calls next b rest hshort ih =>
    rw [fragment_short hshort] at hcomplete
    rw [List.map_cons, List.nodup_cons] at hnodup
    rw [List.map_cons, List.forall_mem_cons] at hnext
    have hrest : ∃ c ∈ rest.dropLast, (pdu : ℕ) < c.data.length := by
      cases rest with
      | nil => simp at hlong
      | cons d rest =>
        obtain ⟨c, hc, hlen⟩ := hlong
        rcases List.mem_cons.mp hc with rfl | hc
        · exact absurd hlen hshort
        · exact ⟨c, hc, hlen⟩
    obtain ⟨id, hid, hlost⟩ := ih hcomplete hnodup.2 hnext.2 hrest
    refine ⟨id, List.mem_cons_of_mem _ hid, fun hmem => ?_⟩
    rw [fragment_short hshort, Fragmented.push, List.map_cons] at hmem
    rcases List.mem_cons.mp hmem with rfl | hmem
    · exact hnodup.1 hid
    · exact hlost hmem

end Fragments

/-- How a call of `send` ends; `again` is `EAGAIN`. -/
inductive SendResult where
  | sent
  | again
  | failed
  deriving DecidableEq, Repr

/-- The label `send`: the call is repeated while it ends with `EAGAIN`. -/
def settle (calls : ℕ → SendResult) : ℕ → ℕ → Option Bool
  | 0, _ => none
  | fuel + 1, i =>
    match calls i with
    | .again => settle calls fuel (i + 1)
    | .sent => some true
    | .failed => some false

inductive Ending where
  | completed
  | sendFailed
  | outOfMemory
  deriving DecidableEq, Repr

def Ending.code : Ending → ℤ
  | .completed => 0
  | .sendFailed | .outOfMemory => -1

/-- What the call has done: the payloads of the datagrams, the blocks that have been handed over with
them, and the blocks that have been released. -/
structure Output where
  datagrams : List (List UInt8)
  handed : List ℕ
  released : List ℕ
  ending : Ending

/-- Why a call does not end: `EAGAIN` is still returned after that many calls, or a fault. -/
inductive Stuck where
  | retrying
  | fault (f : Fault)
  deriving DecidableEq, Repr

def sendGroups (pdu : ℕ) (calls : ℕ → ℕ → SendResult) (fuel : ℕ) : ℕ → List Block → Except Stuck Output
  | _, [] => .ok ⟨[], [], [], .completed⟩
  | datagram, b :: rest =>
    match _h : takeGroup (fun b => b.data.length) pdu 0 (b :: rest) with
    | ([], _) => .error (.fault .nullPointer) -- no block is in front of the first one
    | (first :: group, behind) =>
      match settle (calls datagram) fuel 0 with
      | none => .error .retrying
      | some false =>
        .ok ⟨[], [], (first :: group ++ behind).map Block.id, .sendFailed⟩
      | some true => do
        let output ← sendGroups pdu calls fuel (datagram + 1) behind
        .ok { output with
          datagrams := payload (first :: group) :: output.datagrams
          handed := (first :: group).map Block.id ++ output.handed }
  termination_by _ chain => chain.length
  decreasing_by
    have hlength := congrArg List.length (takeGroup_append (fun b => b.data.length) pdu 0 (b :: rest))
    rw [_h] at hlength
    simp only [List.length_append, List.length_cons] at hlength ⊢
    omega

/-- `Net_AsynchUDPConnectionBase_T::handle_output` for a message of the stream; the number of blocks
that have existed, and what has been done. -/
def handleOutput (pdu : ℕ+) (duplicates : ℕ → Bool) (calls : ℕ → ℕ → SendResult) (fuel : ℕ)
    (message : MessageBlock) : Except Stuck (ℕ × Output) :=
  let f := fragment pdu duplicates 0 message.blocks.length (number 0 message.blocks)
  if f.complete then (sendGroups pdu calls fuel 0 f.chain).map fun output => (f.next, output)
  else .ok (f.next, ⟨[], [], f.chain.map Block.id, .outOfMemory⟩)

end ACENetwork.Net.UDP
