import ACENetwork.Net.UDPOutput

/-!
# Datagrams of a message

The datagrams are the groups of the pieces of a message, and they are sent one after the other
until a send fails. That the blocks of a failed message are released needs that no block
with a continuation has been cut.
-/
namespace ACENetwork.Net.UDP
open BitTorrent (MessageBlock)
open Library

section Datagrams

def datagrams (pdu : ℕ+) (blocks : List (List UInt8)) : List (List UInt8) :=
  (groups List.length pdu (pieces pdu blocks)).map List.flatten

variable {pdu : ℕ+} {blocks : List (List UInt8)}

theorem datagrams_flatten : (datagrams pdu blocks).flatten = blocks.flatten := by
  rw [datagrams, ← List.flatten_flatten, groups_flatten, pieces_flatten]

theorem length_le_of_mem_datagrams {d : List UInt8} (h : d ∈ datagrams pdu blocks) :
    d.length ≤ pdu := by
  obtain ⟨g, hg, rfl⟩ := List.mem_map.mp h
  rw [List.length_flatten]
  exact groups_sum_le (fun d hd => length_le_of_mem_pieces hd) g hg

theorem datagrams_of_mem_nil (h : [] ∈ datagrams pdu blocks) : datagrams pdu blocks = [[]] := by
  obtain ⟨g, hg, hnil⟩ := List.mem_map.mp h
  have hzero : (g.map List.length).sum = 0 := by rw [← List.length_flatten, hnil, List.length_nil]
  have hsingle := groups_of_sum_eq_zero (fun d hd => length_le_of_mem_pieces hd) g hg hzero
  rw [datagrams, hsingle, List.map_singleton, hnil]

theorem flatten_ne_nil_of_cuts (h : 0 < cuts pdu blocks) : blocks.flatten ≠ [] := by
  intro hnil
  rw [List.flatten_eq_nil_iff] at hnil
  have hzero : cuts pdu blocks = 0 := by
    refine List.sum_eq_zero fun n hn => ?_
    obtain ⟨data, hdata, rfl⟩ := List.mem_map.mp hn
    rw [hnil data hdata, List.length_nil, Nat.zero_sub, Nat.zero_div]
  omega

end Datagrams

section Sending

def Settled (calls : ℕ → SendResult) (result : SendResult) : Prop :=
  ∃ n, calls n = result ∧ ∀ j < n, calls j = .again

/-- The result that lets the label `send` be left. -/
def verdict : Bool → SendResult
  | true => .sent
  | false => .failed

theorem verdict_ne_again (b : Bool) : verdict b ≠ .again := by
  cases b <;> exact SendResult.noConfusion

theorem settle_eq_some {calls : ℕ → SendResult} {b : Bool} (fuel i : ℕ) :
    settle calls fuel i = some b ↔
      ∃ n < fuel, calls (i + n) = verdict b ∧ ∀ j < n, calls (i + j) = .again := by
  induction fuel generalizing i with
  | zero => simp [settle]
  | succ fuel ih =>
    rw [settle, Nat.exists_lt_succ_left]
    simp only [Nat.forall_lt_succ_left, Nat.add_zero, Nat.not_lt_zero, false_imp_iff, implies_true,
      and_true]
    cases hcall : calls i with
    | again =>
      simp only [ih, Nat.add_right_comm i 1, ← Nat.add_assoc, true_and, (verdict_ne_again b).symm,
        false_or]
    | sent => cases b <;> simp [verdict]
    | failed => cases b <;> simp [verdict]

theorem Settled.result_eq {calls : ℕ → SendResult} {r s : SendResult} (hr : Settled calls r)
    (hs : Settled calls s) (hr' : r ≠ .again) (hs' : s ≠ .again) : r = s := by
  obtain ⟨m, rfl, hm⟩ := hr
  obtain ⟨n, rfl, hn⟩ := hs
  rcases Nat.lt_trichotomy m n with hlt | rfl | hlt
  · exact absurd (hn m hlt) hr'
  · rfl
  · exact absurd (hm n hlt) hs'

theorem settled_of_settle {calls : ℕ → SendResult} {fuel : ℕ} {b : Bool}
    (h : settle calls fuel 0 = some b) : Settled calls (verdict b) := by
  obtain ⟨n, -, hn, hagain⟩ := (settle_eq_some fuel 0).mp h
  simp only [Nat.zero_add] at hn hagain
  exact ⟨n, hn, hagain⟩

theorem exists_settle {calls : ℕ → SendResult} (h : ∃ n, calls n ≠ .again) :
    ∃ fuel₀ b, ∀ fuel ≥ fuel₀, settle calls fuel 0 = some b := by
  have hagain (j : ℕ) (hj : j < Nat.find h) : calls j = .again := not_not.mp (Nat.find_min h hj)
  have hfirst : ∃ b, calls (Nat.find h) = verdict b := by
    cases hcall : calls (Nat.find h) with
    | sent => exact ⟨true, rfl⟩
    | failed => exact ⟨false, rfl⟩
    | again => exact absurd hcall (Nat.find_spec h)
  obtain ⟨b, hb⟩ := hfirst
  refine ⟨Nat.find h + 1, b, fun fuel hfuel => (settle_eq_some fuel 0).mpr ?_⟩
  refine ⟨Nat.find h, by omega, ?_⟩
  simp only [Nat.zero_add]
  exact ⟨hb, hagain⟩

def deliver (calls : ℕ → ℕ → SendResult) (fuel : ℕ) : ℕ → List (List Block) → Except Stuck Output
  | _, [] => .ok ⟨[], [], [], .completed⟩
  | datagram, g :: gs =>
    match settle (calls datagram) fuel 0 with
    | none => .error .retrying
    | some false => .ok ⟨[], [], (g :: gs).flatten.map Block.id, .sendFailed⟩
    | some true => do
      let output ← deliver calls fuel (datagram + 1) gs
      .ok { output with
        datagrams := payload g :: output.datagrams
        handed := g.map Block.id ++ output.handed }

theorem sendGroups_cons {pdu : ℕ} {calls : ℕ → ℕ → SendResult} {fuel datagram : ℕ}
    {b first : Block} {rest group behind : List Block}
    (h : takeGroup (fun b => b.data.length) pdu 0 (b :: rest) = (first :: group, behind)) :
    sendGroups pdu calls fuel datagram (b :: rest) =
      match settle (calls datagram) fuel 0 with
      | none => .error .retrying
      | some false => .ok ⟨[], [], (first :: group ++ behind).map Block.id, .sendFailed⟩
      | some true =>
        (sendGroups pdu calls fuel (datagram + 1) behind).bind fun output =>
          .ok { output with
            datagrams := payload (first :: group) :: output.datagrams
            handed := (first :: group).map Block.id ++ output.handed } := by
  rw [sendGroups]
  split
  · rename_i hnone
    rw [h] at hnone
    cases hnone
  · rename_i hsome
    rw [h] at hsome
    cases hsome
    rfl

/-- Where every block fits into a datagram, the second loop goes through the groups. -/
theorem sendGroups_eq {pdu : ℕ} {calls : ℕ → ℕ → SendResult} {fuel : ℕ} (datagram : ℕ)
    (chain : List Block) (hchain : ∀ b ∈ chain, b.data.length ≤ pdu) :
    sendGroups pdu calls fuel datagram chain =
      deliver calls fuel datagram (groups (fun b => b.data.length) pdu chain) := by
  induction chain using groups.induct (fun b : Block => b.data.length) pdu generalizing datagram with
  | case1 => rw [sendGroups, groups, deliver]
  | case2 b rest ih =>
    have happend := takeGroup_append (fun b : Block => b.data.length) pdu b.data.length rest
    have hfirst : takeGroup (fun b => b.data.length) pdu 0 (b :: rest) =
        (b :: (takeGroup (fun b => b.data.length) pdu b.data.length rest).1,
          (takeGroup (fun b => b.data.length) pdu b.data.length rest).2) := by
      rw [takeGroup, Nat.zero_add, if_pos (hchain b List.mem_cons_self)]
    have hbehind : ∀ c ∈ (takeGroup (fun b : Block => b.data.length) pdu b.data.length rest).2,
        c.data.length ≤ pdu := by
      intro c hc
      refine hchain c (List.mem_cons_of_mem b ?_)
      rw [← happend]
      exact List.mem_append_right _ hc
    rw [sendGroups_cons hfirst, groups_cons, deliver, ih _ hbehind, List.flatten_cons,
      groups_flatten]
    rfl

/-- What has been done when `n` groups have been sent. -/
structure Delivered (calls : ℕ → ℕ → SendResult) (datagram : ℕ) (gs : List (List Block)) (n : ℕ)
    (output : Output) : Prop where
  sent : ∀ i < n, Settled (calls (datagram + i)) .sent
  datagrams : output.datagrams = (gs.take n).map payload
  handed : output.handed = (gs.take n).flatten.map Block.id
  released : output.released = (gs.drop n).flatten.map Block.id
  ending : output.ending = .completed ∧ n = gs.length ∨
    output.ending = .sendFailed ∧ n < gs.length ∧ Settled (calls (datagram + n)) .failed

theorem deliver_ok {calls : ℕ → ℕ → SendResult} {fuel : ℕ} {datagram : ℕ} {gs : List (List Block)}
    {output : Output} (h : deliver calls fuel datagram gs = .ok output) :
    ∃ n, Delivered calls datagram gs n output := by
  induction gs generalizing datagram output with
  | nil =>
    cases h
    exact ⟨0, by simp, rfl, rfl, rfl, Or.inl ⟨rfl, rfl⟩⟩
  | cons g gs ih =>
    rw [deliver] at h
    cases hsettle : settle (calls datagram) fuel 0 with
    | none =>
      rw [hsettle] at h
      cases h
    | some b =>
      have hsettled := settled_of_settle hsettle
      cases b with
      | false =>
        rw [hsettle] at h
        cases h
        exact ⟨0, by simp, rfl, rfl, rfl, Or.inr ⟨rfl, Nat.succ_pos _, hsettled⟩⟩
      | true =>
        rw [hsettle] at h
        cases hrest : deliver calls fuel (datagram + 1) gs with
        | error e =>
          rw [hrest] at h
          cases h
        | ok rest =>
          rw [hrest] at h
          cases h
          obtain ⟨n, hn⟩ := ih hrest
          have hnext (i : ℕ) : datagram + (i + 1) = datagram + 1 + i := by omega
          refine ⟨n + 1, ?_, ?_, ?_, hn.released, ?_⟩
          · rw [Nat.forall_lt_succ_left]
            refine ⟨hsettled, fun i hi => ?_⟩
            rw [hnext]
            exact hn.sent i hi
          · rw [List.take_succ_cons, List.map_cons, ← hn.datagrams]
          · rw [List.take_succ_cons, List.flatten_cons, List.map_append, ← hn.handed]
          · rw [hnext, List.length_cons]
            exact hn.ending.imp (fun h => ⟨h.1, by rw [h.2]⟩)
              fun h => ⟨h.1, Nat.succ_lt_succ h.2.1, h.2.2⟩

/-- A datagram whose predecessors are sent is not retried forever. -/
def Settles (calls : ℕ → ℕ → SendResult) (datagram count : ℕ) : Prop :=
  ∀ i < count, (∀ j < i, Settled (calls (datagram + j)) .sent) → ∃ n, calls (datagram + i) n ≠ .again

theorem Settled.exists_ne_again {calls : ℕ → SendResult} {r : SendResult} (h : Settled calls r)
    (hr : r ≠ .again) : ∃ n, calls n ≠ .again := by
  obtain ⟨n, rfl, -⟩ := h
  exact ⟨n, hr⟩

theorem Delivered.settles {calls : ℕ → ℕ → SendResult} {datagram n : ℕ} {gs : List (List Block)}
    {output : Output} (h : Delivered calls datagram gs n output) :
    Settles calls datagram gs.length := by
  intro i hi hsent
  rcases Nat.lt_trichotomy i n with hlt | rfl | hlt
  · exact (h.sent i hlt).exists_ne_again SendResult.noConfusion
  · rcases h.ending with ⟨-, hlen⟩ | ⟨-, -, hfailed⟩
    · omega
    · exact hfailed.exists_ne_again SendResult.noConfusion
  · rcases h.ending with ⟨-, hlen⟩ | ⟨-, -, hfailed⟩
    · omega
    · exact absurd ((hsent n hlt).result_eq hfailed SendResult.noConfusion SendResult.noConfusion)
        SendResult.noConfusion

theorem exists_deliver {calls : ℕ → ℕ → SendResult} {datagram : ℕ} (gs : List (List Block))
    (h : Settles calls datagram gs.length) :
    ∃ fuel₀, ∀ fuel ≥ fuel₀, ∃ output, deliver calls fuel datagram gs = .ok output := by
  induction gs generalizing datagram with
  | nil => exact ⟨0, fun fuel _ => ⟨_, rfl⟩⟩
  | cons g gs ih =>
    have hnext (j : ℕ) : datagram + (j + 1) = datagram + 1 + j := by omega
    have hfirst : ∃ n, calls datagram n ≠ .again :=
      h 0 (Nat.succ_pos _) fun j hj => absurd hj (Nat.not_lt_zero j)
    obtain ⟨fuel₁, b, hsettle⟩ := exists_settle hfirst
    cases b with
    | false => exact ⟨fuel₁, fun fuel hfuel => ⟨_, by rw [deliver, hsettle fuel hfuel]⟩⟩
    | true =>
      have hsent := settled_of_settle (hsettle fuel₁ le_rfl)
      have hrest : Settles calls (datagram + 1) gs.length := by
        intro i hi hearlier
        rw [← hnext]
        refine h (i + 1) (Nat.succ_lt_succ hi) (Nat.forall_lt_succ_left.mpr ⟨hsent, fun j hj => ?_⟩)
        rw [hnext]
        exact hearlier j hj
      obtain ⟨fuel₂, hdeliver⟩ := ih hrest
      refine ⟨max fuel₁ fuel₂, fun fuel hfuel => ?_⟩
      obtain ⟨output, houtput⟩ := hdeliver fuel (le_of_max_le_right hfuel)
      refine ⟨{ output with
        datagrams := payload g :: output.datagrams
        handed := g.map Block.id ++ output.handed }, ?_⟩
      rw [deliver, hsettle fuel (le_of_max_le_left hfuel)]
      simp only [houtput]
      rfl

end Sending

section Output

/-- The message is sent exactly, or, when a send fails, a prefix of it; what has not been handed
over then is released once. -/
structure Exact (pdu : ℕ+) (message : MessageBlock) (next : ℕ) (output : Output) : Prop where
  all : output.ending ≠ .sendFailed →
    (∀ d ∈ output.datagrams, d.length ≤ pdu) ∧ output.datagrams.flatten = message.bytes ∧
      ([] ∈ output.datagrams → output.datagrams = [[]])
  front : output.ending = .sendFailed → output.datagrams.flatten <+: message.bytes ∧
    ∀ id < next, id ∉ output.handed → output.released.count id = 1

variable {pdu : ℕ+} {duplicates : ℕ → Bool} {calls : ℕ → ℕ → SendResult} {message : MessageBlock}

def SendsExactly (pdu : ℕ+) (duplicates : ℕ → Bool) (calls : ℕ → ℕ → SendResult)
    (message : MessageBlock) : Prop :=
  (∃ fuel next output, handleOutput pdu duplicates calls fuel message = .ok (next, output)) ∧
    ∀ fuel next output, handleOutput pdu duplicates calls fuel message = .ok (next, output) →
      Exact pdu message next output

def fragments (pdu : ℕ+) (duplicates : ℕ → Bool) (message : MessageBlock) : Fragmented :=
  fragment pdu duplicates 0 message.blocks.length (number 0 message.blocks)

def parcels (pdu : ℕ+) (duplicates : ℕ → Bool) (message : MessageBlock) : List (List Block) :=
  groups (fun b => b.data.length) pdu (fragments pdu duplicates message).chain

theorem fragments_complete : (fragments pdu duplicates message).complete = true ↔
    ∀ i < cuts pdu message.blocks, duplicates i = true := by
  have hcomplete := @fragment_complete pdu duplicates 0 message.blocks.length (number 0 message.blocks)
  simp only [number_data, Nat.zero_add] at hcomplete
  exact hcomplete

theorem fragments_data (h : (fragments pdu duplicates message).complete = true) :
    (fragments pdu duplicates message).chain.map Block.data = pieces pdu message.blocks := by
  have hdata := fragment_data _ _ _ h
  rw [number_data] at hdata
  exact hdata

theorem number_dropLast (next : ℕ) (blocks : List (List UInt8)) :
    (number next blocks).dropLast.map Block.data = blocks.dropLast := by
  rw [List.map_dropLast, number_data]

/-- Where only the last block is cut, the chain has every block that exists, once. -/
theorem fragments_ids (h : ∀ data ∈ message.blocks.dropLast, data.length ≤ pdu) :
    (fragments pdu duplicates message).chain.map Block.id =
      List.range (fragments pdu duplicates message).next := by
  rw [← number_dropLast 0, List.forall_mem_map] at h
  have hnext : message.blocks.length ≤ (fragments pdu duplicates message).next :=
    le_fragment_next _ _ _
  have hids := @fragment_ids pdu duplicates 0 message.blocks.length _ h
  have hrange := @List.range'_append_1 0 message.blocks.length
    ((fragments pdu duplicates message).next - message.blocks.length)
  rw [Nat.zero_add, Nat.add_sub_cancel' hnext] at hrange
  rw [List.range_eq_range', ← hrange, ← number_ids]
  exact hids

theorem fragments_lose (hcomplete : (fragments pdu duplicates message).complete = true)
    (h : ∃ data ∈ message.blocks.dropLast, (pdu : ℕ) < data.length) :
    ∃ id < (fragments pdu duplicates message).next,
      id ∉ (fragments pdu duplicates message).chain.map Block.id := by
  have hlong : ∃ b ∈ (number 0 message.blocks).dropLast, (pdu : ℕ) < b.data.length := by
    obtain ⟨data, hdata, hlen⟩ := h
    rw [← number_dropLast 0] at hdata
    obtain ⟨b, hb, rfl⟩ := List.mem_map.mp hdata
    exact ⟨b, hb, hlen⟩
  have hnodup : ((number 0 message.blocks).map Block.id).Nodup := by
    rw [number_ids]
    exact List.nodup_range'
  have hnext : ∀ id ∈ (number 0 message.blocks).map Block.id, id < message.blocks.length := by
    intro id hid
    rw [number_ids, List.mem_range'_1, Nat.zero_add] at hid
    exact hid.2
  obtain ⟨id, hid, hlost⟩ := fragment_loses _ _ _ hcomplete hnodup hnext hlong
  exact ⟨id, hid.trans_le (le_fragment_next _ _ _), hlost⟩

theorem parcels_flatten :
    (parcels pdu duplicates message).flatten = (fragments pdu duplicates message).chain :=
  groups_flatten _

theorem parcels_payload (h : (fragments pdu duplicates message).complete = true) :
    (parcels pdu duplicates message).map payload = datagrams pdu message.blocks := by
  have hgroups : groups List.length pdu ((fragments pdu duplicates message).chain.map Block.data) =
      (parcels pdu duplicates message).map (List.map Block.data) := groups_map Block.data _
  rw [fragments_data h] at hgroups
  rw [datagrams, hgroups, List.map_map]
  rfl

/-- The function ends with a chain that has been cut, and what has been delivered of it. -/
theorem handleOutput_complete (h : (fragments pdu duplicates message).complete = true) (fuel : ℕ) :
    handleOutput pdu duplicates calls fuel message =
      (deliver calls fuel 0 (parcels pdu duplicates message)).map fun output =>
        ((fragments pdu duplicates message).next, output) := by
  have hchain : ∀ b ∈ (fragments pdu duplicates message).chain, b.data.length ≤ pdu := by
    intro b hb
    refine @length_le_of_mem_pieces pdu message.blocks _ ?_
    rw [← fragments_data h]
    exact List.mem_map_of_mem hb
  rw [parcels, ← sendGroups_eq 0 _ hchain, handleOutput]
  exact if_pos h

/-- Everything that exists has been sent or released, when only the last block has been cut. -/
theorem exact_of_delivered {n : ℕ} {output : Output}
    (hcomplete : (fragments pdu duplicates message).complete = true)
    (hcut : output.ending = .sendFailed → ∀ data ∈ message.blocks.dropLast, data.length ≤ pdu)
    (h : Delivered calls 0 (parcels pdu duplicates message) n output) :
    Exact pdu message (fragments pdu duplicates message).next output := by
  have hdatagrams : output.datagrams = (datagrams pdu message.blocks).take n := by
    rw [h.datagrams, List.map_take, parcels_payload hcomplete]
  refine ⟨fun hending => ?_, fun hending => ⟨?_, fun id hid hhanded => ?_⟩⟩
  · rcases h.ending with ⟨-, hn⟩ | ⟨hfailed, -⟩
    · have hcount : (datagrams pdu message.blocks).length ≤ n := by
        rw [← parcels_payload hcomplete, List.length_map, hn]
      rw [List.take_of_length_le hcount] at hdatagrams
      rw [hdatagrams, datagrams_flatten]
      exact ⟨fun d hd => length_le_of_mem_datagrams hd, rfl, datagrams_of_mem_nil⟩
    · exact absurd hfailed hending
  · have hflatten : message.bytes = (datagrams pdu message.blocks).flatten := datagrams_flatten.symm
    rw [hdatagrams, hflatten]
    exact (List.take_prefix _ _).flatten
  · have hids := @fragments_ids pdu duplicates message (hcut hending)
    have hsplit : output.handed ++ output.released =
        List.range (fragments pdu duplicates message).next := by
      rw [h.handed, h.released, ← List.map_append, ← List.flatten_append, List.take_append_drop,
        parcels_flatten, hids]
    have hcount : (output.handed ++ output.released).count id = 1 := by
      rw [hsplit]
      exact List.count_eq_one_of_mem List.nodup_range (List.mem_range.mpr hid)
    rw [List.count_append, List.count_eq_zero_of_not_mem hhanded, Nat.zero_add] at hcount
    exact hcount

def Fails (calls : ℕ → ℕ → SendResult) (count : ℕ) : Prop :=
  ∃ i < count, (∀ j < i, Settled (calls j) .sent) ∧ Settled (calls i) .failed

/-- The number of sent groups is that in front of the first failure. -/
theorem Delivered.fails {datagram n : ℕ} {gs : List (List Block)} {output : Output}
    (h : Delivered calls datagram gs n output) (hending : output.ending = .sendFailed) :
    Fails (fun i => calls (datagram + i)) gs.length := by
  rcases h.ending with ⟨hcompleted, -⟩ | ⟨-, hn, hfailed⟩
  · rw [hending] at hcompleted
    cases hcompleted
  · exact ⟨n, hn, h.sent, hfailed⟩

theorem Delivered.sendFailed {datagram n : ℕ} {gs : List (List Block)} {output : Output}
    (h : Delivered calls datagram gs n output) (hfails : Fails (fun i => calls (datagram + i)) gs.length) :
    output.ending = .sendFailed := by
  rcases h.ending with ⟨-, rfl⟩ | ⟨hfailed, -⟩
  · obtain ⟨i, hi, -, hfailed⟩ := hfails
    exact absurd ((h.sent i hi).result_eq hfailed SendResult.noConfusion SendResult.noConfusion)
      SendResult.noConfusion
  · exact hfailed

theorem released_sublist {n : ℕ} {output : Output}
    (h : Delivered calls 0 (parcels pdu duplicates message) n output) :
    ∀ id ∈ output.handed ++ output.released,
      id ∈ (fragments pdu duplicates message).chain.map Block.id := by
  intro id hid
  rw [h.handed, h.released, ← List.map_append, ← List.flatten_append, List.take_append_drop,
    parcels_flatten] at hid
  exact hid

/-- Where a block with a continuation is cut and a send fails, a block is neither sent nor
released. -/
theorem not_exact_of_lost {n : ℕ} {output : Output}
    (hcomplete : (fragments pdu duplicates message).complete = true)
    (hlong : ∃ data ∈ message.blocks.dropLast, (pdu : ℕ) < data.length)
    (h : Delivered calls 0 (parcels pdu duplicates message) n output)
    (hending : output.ending = .sendFailed) :
    ¬ Exact pdu message (fragments pdu duplicates message).next output := by
  intro hexact
  obtain ⟨id, hid, hlost⟩ := fragments_lose hcomplete hlong
  have hnone : id ∉ output.handed ++ output.released := fun hmem =>
    hlost (released_sublist h id hmem)
  rw [List.mem_append, not_or] at hnone
  have hcount := (hexact.front hending).2 id hid hnone.1
  rw [List.count_eq_zero_of_not_mem hnone.2] at hcount
  cases hcount

theorem not_exact_of_incomplete {fuel : ℕ} (h : (fragments pdu duplicates message).complete ≠ true) :
    ∃ next output, handleOutput pdu duplicates calls fuel message = .ok (next, output) ∧
      ¬ Exact pdu message next output := by
  refine ⟨_, _, if_neg h, fun hexact => ?_⟩
  obtain ⟨-, hbytes, -⟩ := hexact.all Ending.noConfusion
  refine @flatten_ne_nil_of_cuts pdu _ ?_ hbytes.symm
  rw [ne_eq, fragments_complete] at h
  by_contra hzero
  exact h fun i hi => absurd hi (by omega)

theorem parcels_length (h : (fragments pdu duplicates message).complete = true) :
    (parcels pdu duplicates message).length = (datagrams pdu message.blocks).length := by
  rw [← parcels_payload h, List.length_map]

theorem delivered_of_handleOutput {fuel next : ℕ} {output : Output}
    (hcomplete : (fragments pdu duplicates message).complete = true)
    (h : handleOutput pdu duplicates calls fuel message = .ok (next, output)) :
    next = (fragments pdu duplicates message).next ∧
      ∃ n, Delivered calls 0 (parcels pdu duplicates message) n output := by
  rw [handleOutput_complete hcomplete] at h
  cases hdeliver : deliver calls fuel 0 (parcels pdu duplicates message) with
  | error e =>
    rw [hdeliver] at h
    cases h
  | ok output =>
    rw [hdeliver] at h
    cases h
    exact ⟨rfl, deliver_ok hdeliver⟩

/-- The message is sent exactly when every block can be duplicated that must be, no send is
retried forever, and, if a send fails, no block but the last is longer than a datagram. -/
theorem sendsExactly_iff (pdu : ℕ+) (duplicates : ℕ → Bool) (calls : ℕ → ℕ → SendResult)
    (message : MessageBlock) :
    SendsExactly pdu duplicates calls message ↔
      (∀ i < cuts pdu message.blocks, duplicates i = true) ∧
      Settles calls 0 (datagrams pdu message.blocks).length ∧
      (Fails calls (datagrams pdu message.blocks).length →
        ∀ data ∈ message.blocks.dropLast, data.length ≤ pdu) := by
  have hzero : (fun i => calls (0 + i)) = calls := by
    funext i
    rw [Nat.zero_add]
  rw [← fragments_complete]
  constructor
  · rintro ⟨⟨fuel, next, output, hok⟩, hexact⟩
    have hcomplete : (fragments pdu duplicates message).complete = true := by
      by_contra hincomplete
      obtain ⟨next, output, hok, hnot⟩ := @not_exact_of_incomplete _ _ calls _ fuel hincomplete
      exact hnot (hexact fuel next output hok)
    obtain ⟨rfl, n, hn⟩ := delivered_of_handleOutput hcomplete hok
    rw [← parcels_length hcomplete]
    refine ⟨hcomplete, hn.settles, fun hfails data hdata => ?_⟩
    by_contra hlong
    have hending := hn.sendFailed (by rwa [hzero])
    exact not_exact_of_lost hcomplete ⟨data, hdata, Nat.lt_of_not_le hlong⟩ hn hending
      (hexact fuel _ output hok)
  · rintro ⟨hcomplete, hsettles, hcut⟩
    rw [← parcels_length hcomplete] at hsettles hcut
    refine ⟨?_, fun fuel next output hok => ?_⟩
    · obtain ⟨fuel, hfuel⟩ := exists_deliver _ hsettles
      obtain ⟨output, houtput⟩ := hfuel fuel le_rfl
      refine ⟨fuel, (fragments pdu duplicates message).next, output, ?_⟩
      rw [handleOutput_complete hcomplete, houtput]
      rfl
    · obtain ⟨rfl, n, hn⟩ := delivered_of_handleOutput hcomplete hok
      refine exact_of_delivered hcomplete (fun hending => hcut ?_) hn
      have hfails := hn.fails hending
      rwa [hzero] at hfails

/-- A datagram has four bytes at most, and the second send fails: the block behind the long one
is not released. -/
theorem not_sendsExactly : ¬ SendsExactly 4 (fun _ => true)
    (fun datagram _ => if datagram = 0 then .sent else .failed)
    ⟨[1, 2, 3, 4, 5, 6], [[7]]⟩ := by
  intro h
  have hrun : handleOutput 4 (fun _ => true) (fun datagram _ => if datagram = 0 then .sent else .failed) 1
      ⟨[1, 2, 3, 4, 5, 6], [[7]]⟩ = .ok (4, ⟨[[1, 2, 3, 4]], [0], [2, 3], .sendFailed⟩) := by
    simp [handleOutput, MessageBlock.blocks, number, fragment, Fragmented.push, duplicate,
      sendGroups, takeGroup, settle]
    rfl
  have hreleased := ((h.2 1 4 _ hrun).front rfl).2 1 (by decide) (by decide)
  revert hreleased
  decide

end Output
end ACENetwork.Net.UDP
