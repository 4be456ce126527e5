import ACENetwork.Net.UDPDatagrams

/-!
# Output in the two dispatch modes

`Net_UDPConnectionBase_T::handle_output`, which the reactor calls, sends the first block of a
message only, and takes an empty datagram for a closed connection. The function of the
proactor sends the whole chain.
-/
namespace ACENetwork.Net.UDP
open BitTorrent (Fault MessageBlock fault_bind_ok)
open Library

/-- What the reactor's function has handed to the socket, and its result. -/
structure Dispatched where
  data : List UInt8
  result : ℤ
  deriving DecidableEq, Repr

/-- `Net_UDPConnectionBase_T::handle_output` for a message of the stream; `send` tells how many
bytes the socket has taken. -/
def Reactor.handleOutput (send : List UInt8 → ℤ) (message : MessageBlock) : Except Fault Dispatched :=
  match send message.data with
  | -1 => .ok ⟨message.data, -1⟩
  | 0 => .ok ⟨message.data, -1⟩ -- remove 'this' from dispatch
  | bytesSent =>
    if bytesSent = message.data.length then .ok ⟨message.data, 0⟩ else .error .assertion

theorem Reactor.handleOutput_taken {send : List UInt8 → ℤ} {message : MessageBlock}
    (h : send message.data = message.data.length) :
    Reactor.handleOutput send message = .ok ⟨message.data, if message.data = [] then -1 else 0⟩ := by
  rw [Reactor.handleOutput, h]
  split
  · omega
  · rename_i hzero
    rw [if_pos (List.length_eq_zero_iff.mp (Int.natCast_eq_zero.mp hzero))]
  · rename_i hzero
    rw [if_pos rfl, if_neg fun hnil => hzero (by rw [hnil]; rfl)]

section

variable {pdu : ℕ+} {duplicates : ℕ → Bool} {calls : ℕ → ℕ → SendResult} {message : MessageBlock}

theorem pieces_of_fits {blocks : List (List UInt8)} (h : ∀ data ∈ blocks, data.length ≤ pdu) :
    pieces pdu blocks = blocks := by
  induction blocks with
  | nil => rfl
  | cons data blocks ih =>
    rw [List.forall_mem_cons] at h
    rw [pieces, List.flatMap_cons, cut_short (by omega), List.singleton_append]
    exact congrArg _ (ih h.2)

theorem datagrams_of_fits (h : message.totalLength ≤ pdu) :
    datagrams pdu message.blocks = [message.bytes] := by
  have hblocks : ∀ data ∈ message.blocks, data.length ≤ pdu := fun data hdata =>
    (List.single_le_sum (fun _ _ => Nat.zero_le _) _ (List.mem_map_of_mem hdata)).trans h
  have hgroup : groups List.length pdu message.blocks = [message.blocks] :=
    groups_of_sum_le (List.cons_ne_nil _ _) h
  rw [datagrams, pieces_of_fits hblocks, hgroup]
  rfl

theorem cuts_of_fits (h : message.totalLength ≤ pdu) : cuts pdu message.blocks = 0 := by
  have hpos := pdu.pos
  refine List.sum_eq_zero fun n hn => ?_
  obtain ⟨data, hdata, rfl⟩ := List.mem_map.mp hn
  have hlen : data.length ≤ message.totalLength :=
    List.single_le_sum (fun _ _ => Nat.zero_le _) _ (List.mem_map_of_mem hdata)
  exact Nat.div_eq_of_lt (by omega)

theorem handleOutput_of_fits (hfits : message.totalLength ≤ pdu) (hsent : Settled (calls 0) .sent) :
    ∃ fuel next output, handleOutput pdu duplicates calls fuel message = .ok (next, output) ∧
      output.datagrams = [message.bytes] ∧ output.ending = .completed := by
  have hcomplete : (fragments pdu duplicates message).complete = true := by
    rw [fragments_complete, cuts_of_fits hfits]
    intro i hi
    cases hi
  have hcount : (parcels pdu duplicates message).length = 1 := by
    rw [parcels_length hcomplete, datagrams_of_fits hfits, List.length_singleton]
  have hsettles : Settles calls 0 (parcels pdu duplicates message).length := by
    rw [hcount]
    intro i hi _
    obtain rfl := Nat.lt_one_iff.mp hi
    exact hsent.exists_ne_again SendResult.noConfusion
  obtain ⟨fuel, hfuel⟩ := exists_deliver _ hsettles
  obtain ⟨output, houtput⟩ := hfuel fuel le_rfl
  obtain ⟨n, hn⟩ := deliver_ok houtput
  refine ⟨fuel, (fragments pdu duplicates message).next, output, ?_, ?_⟩
  · rw [handleOutput_complete hcomplete, houtput]
    rfl
  · rcases hn.ending with ⟨hending, rfl⟩ | ⟨-, hlt, hfailed⟩
    · refine ⟨?_, hending⟩
      rw [hn.datagrams, List.take_length, parcels_payload hcomplete, datagrams_of_fits hfits]
    · -- the only datagram is sent
      obtain rfl : n = 0 := by omega
      exact absurd (hsent.result_eq hfailed SendResult.noConfusion SendResult.noConfusion)
        SendResult.noConfusion

end

/-- Both functions send the message, and report that they have. -/
def SendSame (pdu : ℕ+) (duplicates : ℕ → Bool) (calls : ℕ → ℕ → SendResult) (send : List UInt8 → ℤ)
    (message : MessageBlock) : Prop :=
  ∃ fuel next output dispatched,
    handleOutput pdu duplicates calls fuel message = .ok (next, output) ∧
    Reactor.handleOutput send message = .ok dispatched ∧
    output.datagrams.flatten = message.bytes ∧ dispatched.data = message.bytes ∧
    output.ending.code = 0 ∧ dispatched.result = 0

/-- For sockets that take a datagram that fits, the functions agree where the first block is not
empty and has all the bytes. -/
theorem sendSame_iff (pdu : ℕ+) (duplicates : ℕ → Bool) (calls : ℕ → ℕ → SendResult)
    (send : List UInt8 → ℤ) (message : MessageBlock) (hfits : message.totalLength ≤ pdu)
    (hsent : Settled (calls 0) .sent) (hsend : send message.data = message.data.length) :
    SendSame pdu duplicates calls send message ↔
      message.data ≠ [] ∧ ∀ data ∈ message.cont, data = [] := by
  have hbytes : message.data = message.bytes ↔ ∀ data ∈ message.cont, data = [] := by
    rw [MessageBlock.bytes, MessageBlock.blocks, List.flatten_cons, List.self_eq_append_right,
      List.flatten_eq_nil_iff]
  have hreactor := Reactor.handleOutput_taken hsend
  constructor
  · rintro ⟨fuel, next, output, dispatched, -, hdispatched, -, hdata, -, hresult⟩
    rw [hreactor] at hdispatched
    cases hdispatched
    refine ⟨fun hnil => ?_, hbytes.mp hdata⟩
    rw [if_pos hnil] at hresult
    cases hresult
  · rintro ⟨hne, hcont⟩
    obtain ⟨fuel, next, output, houtput, hdatagrams, hending⟩ :=
      @handleOutput_of_fits pdu duplicates calls message hfits hsent
    refine ⟨fuel, next, output, _, houtput, hreactor, ?_, hbytes.mpr hcont, ?_, if_neg hne⟩
    · rw [hdatagrams, List.flatten_singleton]
    · rw [hending]
      rfl

theorem sendSame_ping : SendSame 4 (fun _ => true) (fun _ _ => .sent) (fun data => data.length)
    ⟨[112, 105], [[]]⟩ :=
  (sendSame_iff 4 (fun _ => true) (fun _ _ => .sent) (fun data => data.length) ⟨[112, 105], [[]]⟩
    (by decide) ⟨0, rfl, fun j hj => absurd hj (Nat.not_lt_zero j)⟩ rfl).mpr (by decide)

/-- The reactor does not send the second block. -/
theorem not_sendSame : ¬ SendSame 4 (fun _ => true) (fun _ _ => .sent) (fun data => data.length)
    ⟨[112], [[105]]⟩ := by
  rintro ⟨fuel, next, output, dispatched, -, hdispatched, -, hdata, -⟩
  cases hdispatched
  revert hdata
  decide

end ACENetwork.Net.UDP
