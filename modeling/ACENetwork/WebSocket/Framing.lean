import ACENetwork.WebSocket.Module

/-!
# The frames of one buffer

Unmasked frames, one behind the other, are taken apart exactly when the two payload states count
them right: a payload of one octet, an extended length below two and every 64-bit length go wrong.
A scanner that works in place spoils the first octet of the next frame.
-/
namespace ACENetwork.WebSocket
open BitTorrent (Fault fault_bind_ok)
open Library

inductive Form where
  | short
  | medium
  | long
  deriving DecidableEq, Repr

def Form.bound : Form → ℕ
  | .short => 126
  | .medium => 2 ^ 16
  | .long => 2 ^ 63

structure Frame where
  final : Bool
  opcode : UInt8
  form : Form
  payload : Bytes
  isNibble : opcode < 16
  fits : payload.length < form.bound

namespace Frame

def first (f : Frame) : UInt8 := if f.final then f.opcode ||| 0x80 else f.opcode

def length (f : Frame) : Bytes :=
  match f.form with
  | .short => [UInt8.ofNat f.payload.length]
  | .medium => 126 :: encodeBE 2 f.payload.length
  | .long => 127 :: encodeBE 8 f.payload.length

def body (f : Frame) : Bytes := f.length ++ f.payload

def bytes (f : Frame) : Bytes := f.first :: f.body

def seen (f : Frame) (b : UInt8) : Passed :=
  ⟨f.bytes.length, b &&& 0x0F, UInt64.ofNat f.payload.length, f.payload⟩

def passed (f : Frame) : Passed :=
  ⟨f.bytes.length, f.opcode, UInt64.ofNat f.payload.length, f.payload⟩

def Exact (f : Frame) : Prop :=
  match f.form with
  | .short => f.payload.length ≠ 1
  | .medium => 2 ≤ f.payload.length
  | .long => False

theorem first_opcode (f : Frame) : f.first &&& 0x0F = f.opcode := by
  have hnibble : ∀ b : UInt8, b < 16 → b &&& 0x0F = b ∧ (b ||| 0x80) &&& 0x0F = b := by
    decide +kernel
  rw [first]
  split_ifs
  · exact (hnibble f.opcode f.isNibble).2
  · exact (hnibble f.opcode f.isNibble).1

theorem seen_first (f : Frame) : f.seen f.first = f.passed := by
  rw [seen, passed, first_opcode]

end Frame

def stream (frames : List Frame) (tail : Bytes) : Bytes :=
  (frames.map Frame.bytes).flatten ++ tail

/-- The first frame is masked, or the top bit of its length is set. -/
inductive Rejected : Bytes → Prop where
  | masked (first second : UInt8) (rest : Bytes) (h : second &&& 0x80 ≠ 0) :
    Rejected (first :: second :: rest)
  | oversized (first b c d e f g h i : UInt8) (rest : Bytes) (htop : b &&& 0x80 ≠ 0) :
    Rejected (first :: 127 :: b :: c :: d :: e :: f :: g :: h :: i :: rest)

/-- The frames in the buffer are passed on, each with the octets that it takes, nothing is passed
for what follows them, and the counter does not wrap. -/
def Framed (tools : StreamTools) (config : Configuration) (capacity : ℕ) (frames : List Frame)
    (tail : Bytes) : Prop :=
  ∃ m, Module.dispatch tools config capacity {} (stream frames tail) = .ok m ∧
    m.passed = frames.map Frame.passed ∧ m.parser.wrapped = false

section Payload

variable {p q : Parser} {text rest : Bytes}

theorem skipped_toNat (p : Parser) (h : p.dataBytesToSkip ≠ 0) :
    p.skipped.dataBytesToSkip.toNat = p.dataBytesToSkip.toNat - 1 := by
  have hone : (1 : UInt64) ≤ p.dataBytesToSkip := by
    rw [UInt64.le_iff_toNat_le]
    exact Nat.pos_of_ne_zero fun hzero => h (UInt64.toNat_inj.mp hzero)
  exact UInt64.toNat_sub_of_le _ _ hone

theorem skipped_zero (p : Parser) (h : p.dataBytesToSkip = 0) :
    p.skipped.dataBytesToSkip.toNat = 2 ^ 64 - 1 := by
  rw [Parser.skipped, h]
  rfl

theorem skipped_wrapped (p : Parser) (h : p.dataBytesToSkip ≠ 0) :
    p.skipped.wrapped = p.wrapped := by
  have hzero : (p.dataBytesToSkip == 0) = false := beq_false_of_ne h
  rw [Parser.skipped, hzero, Bool.or_false]

theorem lex_data (hdata : p.condition = .data) (hskip : p.dataBytesToSkip ≠ 0)
    (hlength : p.dataBytesToSkip.toNat ≤ text.length) :
    ∃ q, lex p text = .ok (q, .frame, text.drop p.dataBytesToSkip.toNat) ∧
      q.condition = .initial ∧ q.offset = p.offset ∧ q.record = p.record ∧
      q.wrapped = p.wrapped := by
  induction text generalizing p with
  | nil => exact absurd (UInt64.toNat_inj.mp (Nat.le_zero.mp hlength)) hskip
  | cons b text ih =>
    have hnat := skipped_toNat p hskip
    have hpos : p.dataBytesToSkip.toNat ≠ 0 := fun h => hskip (UInt64.toNat_inj.mp h)
    have hdrop : (b :: text).drop p.dataBytesToSkip.toNat =
        text.drop p.skipped.dataBytesToSkip.toNat := by
      rw [hnat, ← Nat.succ_pred_eq_of_pos (Nat.pos_of_ne_zero hpos)]
      rfl
    have hwrapped := skipped_wrapped p hskip
    rw [lex_data_cons hdata, hdrop]
    split_ifs with hdone
    · have hzero : p.skipped.dataBytesToSkip.toNat = 0 := by
        rw [hdone]
        rfl
      rw [hzero, List.drop_zero]
      exact ⟨{ p.skipped with condition := .initial, finished := true },
        rfl, rfl, rfl, rfl, hwrapped⟩
    · have hle : p.skipped.dataBytesToSkip.toNat ≤ text.length := by
        rw [List.length_cons] at hlength
        omega
      obtain ⟨q, hlex, hcondition, hoffset, hrecord, hkept⟩ := ih (p := p.skipped) hdata hdone hle
      exact ⟨q, hlex, hcondition, hoffset, hrecord, hkept.trans hwrapped⟩

theorem lex_payload (hpayload : p.condition = .payload) (hskip : 2 ≤ p.dataBytesToSkip.toNat)
    (hlength : p.dataBytesToSkip.toNat ≤ text.length) :
    ∃ q, lex p text = .ok (q, .frame, text.drop p.dataBytesToSkip.toNat) ∧
      q.condition = .initial ∧ q.offset = p.offset ∧ q.record = p.record ∧
      q.wrapped = p.wrapped := by
  have hne : p.dataBytesToSkip ≠ 0 := by
    rintro h
    rw [h] at hskip
    contradiction
  have hnat := skipped_toNat p hne
  cases text with
  | nil =>
    rw [List.length_nil] at hlength
    omega
  | cons b text =>
    have hdrop : (b :: text).drop p.dataBytesToSkip.toNat =
        text.drop p.skipped.dataBytesToSkip.toNat := by
      rw [hnat, ← Nat.succ_pred_eq_of_pos (by omega : 0 < p.dataBytesToSkip.toNat)]
      rfl
    have hleft : p.skipped.dataBytesToSkip ≠ 0 := by
      intro h
      rw [h] at hnat
      have : (0 : UInt64).toNat = 0 := rfl
      omega
    rw [List.length_cons] at hlength
    obtain ⟨q, hlex, hcondition, hoffset, hrecord, hkept⟩ :=
      @lex_data { p.skipped with condition := .data } text rfl hleft
        (by dsimp only; omega)
    refine ⟨q, ?_, hcondition, hoffset, hrecord, hkept.trans (skipped_wrapped p hne)⟩
    rw [lex_payload_cons hpayload, if_neg hne, hdrop]
    exact hlex

/-- What `data` has taken once it finds a frame; a counter of zero wraps first. -/
theorem lex_data_cost (hdata : p.condition = .data) (hlength : text.length < 2 ^ 64)
    (h : lex p text = .ok (q, .frame, rest)) :
    p.dataBytesToSkip ≠ 0 ∧ text.length = rest.length + p.dataBytesToSkip.toNat := by
  induction text generalizing p with
  | nil => cases h
  | cons b text ih =>
    rw [List.length_cons] at hlength
    rw [lex_data_cons hdata] at h
    by_cases hskip : p.dataBytesToSkip = 0
    · have hnat := skipped_zero p hskip
      have hleft : p.skipped.dataBytesToSkip ≠ 0 := by
        intro hzero
        rw [hzero] at hnat
        contradiction
      rw [if_neg hleft] at h
      have := (ih (p := p.skipped) hdata (by omega) h).2
      omega
    · have hnat := skipped_toNat p hskip
      have hpos : p.dataBytesToSkip.toNat ≠ 0 := fun h => hskip (UInt64.toNat_inj.mp h)
      refine ⟨hskip, ?_⟩
      split_ifs at h with hdone
      · cases h
        rw [hdone] at hnat
        have : (0 : UInt64).toNat = 0 := rfl
        rw [List.length_cons]
        omega
      · have := (ih (p := p.skipped) hdata (by omega) h).2
        rw [List.length_cons]
        omega

theorem lex_payload_cost (hpayload : p.condition = .payload) (hlength : text.length < 2 ^ 64)
    (h : lex p text = .ok (q, .frame, rest)) :
    p.dataBytesToSkip.toNat ≠ 1 ∧
      text.length = rest.length + max 1 p.dataBytesToSkip.toNat := by
  cases text with
  | nil => cases h
  | cons b text =>
    rw [List.length_cons] at hlength
    rw [lex_payload_cons hpayload] at h
    split_ifs at h with hzero
    · cases h
      rw [hzero]
      exact ⟨by decide, rfl⟩
    · obtain ⟨hleft, hcost⟩ :=
        lex_data_cost (p := { p.skipped with condition := .data }) rfl (by omega) h
      have hnat := skipped_toNat p hzero
      have hpos : p.dataBytesToSkip.toNat ≠ 0 := fun h => hzero (UInt64.toNat_inj.mp h)
      have hpos' : p.skipped.dataBytesToSkip.toNat ≠ 0 :=
        fun h => hleft (UInt64.toNat_inj.mp h)
      dsimp only at hcost
      rw [List.length_cons]
      omega

end Payload

section Header

variable {p q : Parser} {b : UInt8} {f : Frame} {rest left : Bytes}

theorem encodeBE_two (n : ℕ) (h : n < 2 ^ 16) :
    ∃ c d, encodeBE 2 n = [c, d] ∧ decodeBE [c, d] = n :=
  ⟨_, _, rfl, decodeBE_encodeBE_of_lt (w := 2) h⟩

/-- The eight octets of a length; without the fifth one they hold no more. -/
theorem encodeBE_eight (n : ℕ) (h : n < 2 ^ 64) :
    ∃ c d e g s t u v, encodeBE 8 n = [c, d, e, g, s, t, u, v] ∧
      decodeBE [c, d, e, g, 0, t, u, v] ≤ n := by
  refine ⟨_, _, _, _, _, _, _, _, rfl, ?_⟩
  have hvalue : decodeBE (encodeBE 8 n) = n := decodeBE_encodeBE_of_lt h
  rw [encodeBE, encodeBE, encodeBE, encodeBE, encodeBE, encodeBE, encodeBE, encodeBE, encodeBE]
    at hvalue
  simp only [decodeBE, List.length_cons, List.length_nil, UInt8.toNat_zero] at hvalue ⊢
  omega

theorem toNat_size {n : ℕ} (h : n < 2 ^ 64) : (UInt64.ofNat n).toNat = n := by
  rw [UInt64.toNat_ofNat', Nat.mod_eq_of_lt h]

theorem short_size {n : ℕ} (h : n < 126) :
    UInt8.ofNat n &&& 0x80 = 0 ∧ (UInt8.ofNat n &&& 0x7F).toUInt64 = UInt64.ofNat n := by
  have hall : ∀ k : Fin 126, UInt8.ofNat k &&& 0x80 = 0 ∧
      (UInt8.ofNat k &&& 0x7F).toUInt64 = UInt64.ofNat k := by decide +kernel
  exact hall ⟨n, h⟩

theorem lex_short (hinitial : p.condition = .initial) (hform : f.form = .short) :
    lex p (b :: (f.body ++ rest)) =
      if f.payload = [] then .ok ((p.first b).sized 1 0 .initial, .frame, rest)
      else lex ((p.first b).sized 1 (UInt64.ofNat f.payload.length) .payload)
        (f.payload ++ rest) := by
  have hfits : f.payload.length < 126 := by
    have := f.fits
    rwa [hform] at this
  obtain ⟨hmask, hsize⟩ := short_size hfits
  have hnat := toNat_size (show f.payload.length < 2 ^ 64 by omega)
  rw [lex_initial hinitial, Frame.body, Frame.length, hform]
  dsimp only [List.cons_append, List.nil_append]
  rw [lex_maskPayloadSizeFirst rfl, hsize, if_neg (not_not_intro hmask)]
  by_cases hempty : f.payload = []
  · rw [if_pos hempty, hempty]
    rfl
  · have hzero : UInt64.ofNat f.payload.length ≠ 0 := by
      intro h
      rw [h] at hnat
      exact hempty (List.length_eq_zero_iff.mp hnat.symm)
    have hle : UInt64.ofNat f.payload.length ≤ 125 := by
      rw [UInt64.le_iff_toNat_le, hnat]
      exact Nat.le_of_lt_succ hfits
    rw [if_neg hempty, if_neg hzero, if_pos hle]

theorem lex_medium (hinitial : p.condition = .initial) (hform : f.form = .medium) :
    ∃ p', lex p (b :: (f.body ++ rest)) = lex p' (f.payload ++ rest) ∧
      p'.condition = .payload ∧ p'.offset = p.offset + 4 ∧ p'.wrapped = p.wrapped ∧
      p'.record.opcode = b &&& 0x0F ∧ p'.record.payloadSize = UInt64.ofNat f.payload.length ∧
      p'.dataBytesToSkip = UInt64.ofNat f.payload.length := by
  have hfits : f.payload.length < 2 ^ 16 := by
    have := f.fits
    rwa [hform] at this
  obtain ⟨c, d, hbytes, hvalue⟩ := encodeBE_two _ hfits
  rw [lex_initial hinitial, Frame.body, Frame.length, hform]
  dsimp only [List.cons_append]
  rw [hbytes]
  dsimp only [List.cons_append, List.nil_append]
  rw [lex_maskPayloadSizeFirst rfl, if_neg (by decide), if_neg (by decide), if_neg (by decide),
    lex_payloadSize16 rfl, hvalue]
  exact ⟨_, rfl, rfl, rfl, rfl, rfl, rfl, rfl⟩

/-- The form with sixty-four bits: four octets of the length are left in front of the payload. -/
theorem lex_long (hinitial : p.condition = .initial) (hform : f.form = .long)
    (h : lex p (b :: (f.body ++ rest)) = .ok (q, .frame, left)) :
    ∃ p' text, lex p' text = .ok (q, .frame, left) ∧ p'.condition = .payload ∧
      text.length = 4 + f.payload.length + rest.length ∧
      p'.dataBytesToSkip.toNat ≤ f.payload.length := by
  have hfits : f.payload.length < 2 ^ 63 := by
    have := f.fits
    rwa [hform] at this
  obtain ⟨c, d, e, g, s, t, u, v, hbytes, hvalue⟩ :=
    encodeBE_eight f.payload.length (by omega)
  rw [lex_initial hinitial, Frame.body, Frame.length, hform] at h
  dsimp only [List.cons_append] at h
  rw [hbytes] at h
  dsimp only [List.cons_append, List.nil_append] at h
  rw [lex_maskPayloadSizeFirst rfl, if_neg (by decide), if_neg (by decide), if_neg (by decide),
    lex_payloadSize64 rfl rfl] at h
  by_cases htop : c &&& 0x80 = 0
  swap
  · rw [if_pos htop] at h
    cases h
  rw [if_neg (not_not_intro htop)] at h
  refine ⟨_, _, h, rfl, ?_, ?_⟩
  · rw [List.length_cons, List.length_cons, List.length_cons, List.length_cons,
      List.length_append]
    omega
  · have hlt : decodeBE [c, d, e, g, 0, t, u, v] < 2 ^ 64 := by omega
    exact (toNat_size hlt).le.trans hvalue

theorem lex_exact (hexact : f.Exact) (hinitial : p.condition = .initial) :
    ∃ q, lex p (b :: (f.body ++ rest)) = .ok (q, .frame, rest) ∧ q.condition = .initial ∧
      q.offset = p.offset + 1 + f.length.length ∧ q.record.opcode = b &&& 0x0F ∧
      q.record.payloadSize = UInt64.ofNat f.payload.length ∧ q.wrapped = p.wrapped := by
  have hfits := f.fits
  have hdrop : (f.payload ++ rest).drop f.payload.length = rest := List.drop_left
  have hle : f.payload.length ≤ (f.payload ++ rest).length := by
    rw [List.length_append]
    exact Nat.le_add_right _ _
  cases hform : f.form with
  | short =>
    rw [Frame.Exact, hform] at hexact
    rw [hform] at hfits
    have hnat := toNat_size (show f.payload.length < 2 ^ 64 from hfits.trans (by decide))
    have hlength : f.length.length = 1 := by
      rw [Frame.length, hform]
      rfl
    rw [lex_short hinitial hform, hlength]
    by_cases hempty : f.payload = []
    · rw [if_pos hempty, hempty]
      exact ⟨_, rfl, rfl, rfl, rfl, rfl, rfl⟩
    · rw [if_neg hempty]
      have hpos := List.length_pos_iff.mpr hempty
      obtain ⟨q, hlex, hcondition, hoffset, hrecord, hwrapped⟩ :=
        @lex_payload ((p.first b).sized 1 (UInt64.ofNat f.payload.length) .payload)
        (f.payload ++ rest) rfl
        (by change 2 ≤ (UInt64.ofNat f.payload.length).toNat; dsimp only at hexact; omega)
        (by change (UInt64.ofNat f.payload.length).toNat ≤ _; rwa [hnat])
      change lex _ _ = .ok (q, .frame, List.drop (UInt64.ofNat f.payload.length).toNat _) at hlex
      rw [hnat, hdrop] at hlex
      refine ⟨q, hlex, hcondition, hoffset, ?_, ?_, hwrapped⟩
      · rw [hrecord]
        rfl
      · rw [hrecord]
        rfl
  | medium =>
    rw [Frame.Exact, hform] at hexact
    rw [hform] at hfits
    have hnat := toNat_size (show f.payload.length < 2 ^ 64 from hfits.trans (by decide))
    have hlength : f.length.length = 3 := by
      rw [Frame.length, hform]
      rfl
    obtain ⟨p', hheader, hpayload, hstart, hkept, hopcode, hsize, hskip⟩ :=
      @lex_medium p b f rest hinitial hform
    obtain ⟨q, hlex, hcondition, hoffset, hrecord, hwrapped⟩ :=
      @lex_payload p' (f.payload ++ rest) hpayload (by rw [hskip, hnat]; exact hexact)
        (by rwa [hskip, hnat])
    rw [hskip, hnat, hdrop] at hlex
    rw [hheader, hlength]
    exact ⟨q, hlex, hcondition, by rw [hoffset, hstart], by rw [hrecord, hopcode],
      by rw [hrecord, hsize], hwrapped.trans hkept⟩
  | long =>
    rw [Frame.Exact, hform] at hexact
    contradiction

theorem lex_inexact (hexact : ¬ f.Exact) (hinitial : p.condition = .initial)
    (hlength : (f.body ++ rest).length < 2 ^ 64)
    (h : lex p (b :: (f.body ++ rest)) = .ok (q, .frame, left)) : left.length ≠ rest.length := by
  have hfits := f.fits
  have htext : (f.payload ++ rest).length < 2 ^ 64 := by
    rw [Frame.body, List.length_append, List.length_append] at hlength
    rw [List.length_append]
    omega
  cases hform : f.form with
  | short =>
    rw [Frame.Exact, hform] at hexact
    have hone : f.payload.length = 1 := not_not.mp hexact
    have hnonempty : f.payload ≠ [] := List.length_pos_iff.mp (hone.symm ▸ Nat.one_pos)
    rw [lex_short hinitial hform, if_neg hnonempty] at h
    obtain ⟨hne, -⟩ := lex_payload_cost rfl htext h
    change (UInt64.ofNat f.payload.length).toNat ≠ 1 at hne
    rw [hone] at hne
    contradiction
  | medium =>
    rw [Frame.Exact, hform] at hexact
    rw [hform] at hfits
    have hnat := toNat_size (show f.payload.length < 2 ^ 64 from hfits.trans (by decide))
    obtain ⟨p', hheader, hpayload, -, -, -, -, hskip⟩ :=
      @lex_medium p b f rest hinitial hform
    rw [hheader] at h
    obtain ⟨hne, hcost⟩ := lex_payload_cost hpayload htext h
    rw [hskip, hnat] at hne hcost
    rw [List.length_append] at hcost
    dsimp only at hexact
    omega
  | long =>
    obtain ⟨p', text, hlex, hpayload, htake, hsize⟩ := lex_long hinitial hform h
    have hlong : f.length.length = 9 := by
      rw [Frame.length, hform]
      rfl
    rw [Frame.body, List.length_append, List.length_append, hlong] at hlength
    obtain ⟨-, hcost⟩ := lex_payload_cost hpayload (by omega) hlex
    omega

theorem lex_rejected (hinitial : p.condition = .initial) (h : Rejected rest) :
    lex p rest = .error .assertion := by
  cases h with
  | masked first second rest h =>
    rw [lex_initial hinitial, lex_maskPayloadSizeFirst rfl, if_pos h]
  | oversized first b c d e f g h i rest htop =>
    rw [lex_initial hinitial, lex_maskPayloadSizeFirst rfl, if_neg (by decide),
      if_neg (by decide), if_neg (by decide), lex_payloadSize64 rfl rfl, if_pos htop]

end Header

def single (block : Bytes) : List Bytes := if block = [] then [] else [block]

/-- What follows a match: its first octet is lost where the scanner works in place. -/
def spoil (inPlace : Bool) (text : Bytes) : Bytes := if inPlace then text.set 0 0 else text

theorem matched_append (config : Configuration) (front rest : Bytes) :
    matched config (front ++ rest) rest = front ++ spoil config.useYYScanBuffer rest := by
  rw [matched, spoil]
  split_ifs
  · rw [List.length_append, Nat.add_sub_cancel,
      List.set_append_right _ _ (Nat.le_refl _), Nat.sub_self]
  · rfl

theorem lex_length {p q : Parser} {token : Token} {text rest : Bytes}
    (h : lex p text = .ok (q, token, rest)) : rest.length ≤ text.length := by
  fun_induction lex p text with
  | case1 | case8 | case12 =>
    cases h
    exact Nat.le_refl _
  | case4 | case13 | case15 =>
    cases h
    exact Nat.le_succ _
  | case3 | case9 | case10 => cases h
  | _ =>
    rename_i ih
    have hle := ih h
    simp only [List.length_cons] at hle ⊢
    omega

section Pass

variable {tools : StreamTools} {config : Configuration} {m m' : Module} {q : Parser}
  {f : Frame} {b : UInt8} {rest : Bytes}

theorem frame_front {consumed : ℕ} {header payload : Bytes} (hoffset : q.offset = header.length)
    (hsize : q.record.payloadSize.toNat = payload.length) :
    m.frame tools q consumed [header ++ (payload ++ rest)] =
      .ok { m with
            parser := { q with finished := true }
            chain := single rest
            passed := m.passed ++ [⟨consumed, q.record.opcode, q.record.payloadSize, payload⟩] } := by
  have hadvance : advance q.offset [header ++ (payload ++ rest)] = .ok [payload ++ rest] := by
    rw [advance, hoffset, if_pos, List.drop_left]
    rw [List.length_append]
    exact Nat.le_add_right _ _
  have hframe : ∃ chain, cut payload.length [payload ++ rest] = .ok chain ∧
      tools.reframe payload.length chain = .ok ([payload], single rest) := by
    by_cases hrest : rest = []
    · subst hrest
      rw [List.append_nil]
      refine ⟨[payload], ?_, ?_⟩
      · rw [cut, if_neg (Nat.lt_irrefl _), if_pos rfl]
      · rw [StreamTools.reframe, if_pos (by simp)]
        rfl
    · refine ⟨[payload, rest], ?_, ?_⟩
      · have hpos := List.length_pos_iff.mpr hrest
        rw [cut, if_pos, List.take_left, List.drop_left]
        rw [List.length_append]
        omega
      · have hflatten : [rest].flatten ≠ [] := by simpa using hrest
        have hpos := List.length_pos_iff.mpr hrest
        rw [StreamTools.reframe, if_neg (by simp; omega), tools.get_front payload [rest] hflatten,
          single, if_neg hrest]
  obtain ⟨chain, hcut, hreframe⟩ := hframe
  unfold Module.frame
  rw [hadvance, hsize]
  change (cut payload.length [payload ++ rest] >>= _) = _
  rw [hcut]
  change (tools.reframe payload.length chain >>= _) = _
  rw [hreframe]
  simp [bind, Except.bind]

theorem parse_begun {p : Parser} {block : Bytes} (h : block.length + config.overhead < 2 ^ 31) :
    parse config p block = lex p.begun block := by
  rw [parse, if_neg (Nat.not_le.mpr h)]

/-- The scanner stops behind an exact frame, and what it has taken is cut off the buffer. -/
theorem frame_exact (hexact : f.Exact) (hinitial : m.parser.condition = .initial)
    (hlength : (b :: (f.body ++ rest)).length + config.overhead < 2 ^ 31) :
    ∃ q, lex m.parser.begun (b :: (f.body ++ rest)) = .ok (q, .frame, rest) ∧
      q.condition = .initial ∧ q.wrapped = m.parser.wrapped ∧
      m.frame tools q ((b :: (f.body ++ rest)).length - rest.length)
          [matched config (b :: (f.body ++ rest)) rest] =
        .ok { m with
              parser := { q with finished := true }
              chain := single (spoil config.useYYScanBuffer rest)
              passed := m.passed ++ [f.seen b] } := by
  obtain ⟨q, hlex, hcondition, hoffset, hopcode, hsize, hwrapped⟩ :=
    @lex_exact m.parser.begun b f rest hexact hinitial
  refine ⟨q, hlex, hcondition, hwrapped, ?_⟩
  have hfits : f.payload.length < 2 ^ 64 := by
    rw [List.length_cons, Frame.body, List.length_append, List.length_append] at hlength
    omega
  have hmatched : matched config (b :: (f.body ++ rest)) rest =
      (b :: f.length) ++ (f.payload ++ spoil config.useYYScanBuffer rest) := by
    have happend := matched_append config (b :: f.body) rest
    rw [List.cons_append] at happend
    rw [happend, Frame.body, List.cons_append, List.append_assoc, List.cons_append]
  have hheader : q.offset = (b :: f.length).length := by
    rw [hoffset, List.length_cons, Nat.add_comm, Nat.add_comm m.parser.begun.offset]
    rfl
  have hpayload : q.record.payloadSize.toNat = f.payload.length := by rw [hsize, toNat_size hfits]
  have hconsumed : (b :: (f.body ++ rest)).length - rest.length = f.bytes.length := by
    rw [List.length_cons, List.length_append, Frame.bytes, List.length_cons]
    omega
  have hframe := @frame_front tools m q (spoil config.useYYScanBuffer rest) f.bytes.length _ _
    hheader hpayload
  rw [hmatched, hconsumed, hframe, hopcode, hsize]
  rfl

/-- An exact frame is cut off the buffer and passed on. -/
theorem run_exact (hexact : f.Exact) (hinitial : m.parser.condition = .initial)
    (hchain : m.chain = [b :: (f.body ++ rest)])
    (hlength : (b :: (f.body ++ rest)).length + config.overhead < 2 ^ 31) :
    ∃ q, q.condition = .initial ∧ q.wrapped = m.parser.wrapped ∧
      m.run tools config = ({ m with
        parser := q
        chain := single (spoil config.useYYScanBuffer rest)
        passed := m.passed ++ [f.seen b] }).run tools config := by
  obtain ⟨q, hlex, hcondition, hwrapped, hframe⟩ :=
    @frame_exact tools config m f b rest hexact hinitial hlength
  refine ⟨{ q with finished := true }, hcondition, hwrapped, ?_⟩
  rw [run_cons hchain, Module.pass, parse_begun hlength, hlex]
  change ((m.frame tools q _ [matched config _ rest] >>= fun m => .ok (m, true)) >>= _) = _
  rw [hframe]
  rfl

/-- What is passed on for a frame that is not exact, if anything, has another length. -/
theorem run_inexact (hexact : ¬ f.Exact) (hinitial : m.parser.condition = .initial)
    (hchain : m.chain = [b :: (f.body ++ rest)])
    (hlength : (b :: (f.body ++ rest)).length + config.overhead < 2 ^ 31)
    (h : m.run tools config = .ok m') (p : Passed) (hp : p.consumed = f.bytes.length)
    (more : List Passed) : m'.passed ≠ m.passed ++ p :: more := by
  intro hpassed
  rw [run_cons hchain] at h
  obtain ⟨⟨next, go⟩, hpass, hrun⟩ := fault_bind_ok.mp h
  obtain ⟨⟨q, token, left⟩, hparse, hpass⟩ := fault_bind_ok.mp hpass
  rw [parse_begun hlength] at hparse
  cases token with
  | frame =>
    obtain ⟨n, hframe, hpass⟩ := fault_bind_ok.mp hpass
    cases hpass
    obtain ⟨payload, hentry⟩ := frame_passed hframe
    obtain ⟨others, hothers⟩ := run_passed hrun
    rw [hentry, hpassed, List.append_assoc, List.append_cancel_left_eq] at hothers
    have hconsumed : (b :: (f.body ++ rest)).length - left.length = f.bytes.length :=
      (congrArg Passed.consumed (List.cons.inj hothers).1).trans hp
    have hleft := lex_inexact (p := m.parser.begun) hexact hinitial
      (by rw [List.length_cons] at hlength; omega) hparse
    have hle := lex_length hparse
    simp only [Frame.bytes, List.length_cons, List.length_append] at hconsumed hle
    omega
  | finished | invalid =>
    dsimp only at hpass
    split_ifs at hpass
    cases hpass
    cases hrun
    have := congrArg List.length hpassed
    rw [List.length_append, List.length_cons] at this
    dsimp only at this
    omega

theorem run_rejected (hrejected : Rejected rest) (hinitial : m.parser.condition = .initial)
    (hchain : m.chain = [rest]) (hlength : rest.length + config.overhead < 2 ^ 31) :
    m.run tools config = .error .assertion := by
  rw [run_cons hchain, Module.pass, parse_begun hlength,
    lex_rejected (p := m.parser.begun) hinitial hrejected]
  rfl

end Pass

/-- The frames can be read in the order in which they come: each is exact, and where its first octet
is lost, the opcode is zero anyhow. -/
def Readable (inPlace : Bool) : Bool → List Frame → Prop
  | _, [] => True
  | spoiled, f :: frames =>
    f.Exact ∧ (spoiled → f.opcode = 0) ∧ Readable inPlace inPlace frames

theorem readable_self {inPlace : Bool} {frames : List Frame} :
    Readable inPlace inPlace frames ↔
      (∀ f ∈ frames, f.Exact) ∧ (inPlace → ∀ f ∈ frames, f.opcode = 0) := by
  induction frames with
  | nil => simp [Readable]
  | cons f frames ih =>
    rw [Readable, ih, List.forall_mem_cons, List.forall_mem_cons]
    tauto

theorem readable_iff {inPlace : Bool} {frames : List Frame} :
    Readable inPlace false frames ↔
      (∀ f ∈ frames, f.Exact) ∧ (inPlace → ∀ f ∈ frames.tail, f.opcode = 0) := by
  cases frames with
  | nil => simp [Readable]
  | cons f frames =>
    rw [Readable, readable_self, List.forall_mem_cons, List.tail_cons]
    simp only [Bool.false_eq_true, false_implies, true_and, and_assoc]

section Run

variable {tools : StreamTools} {config : Configuration} {tail : Bytes}

theorem spoil_length (inPlace : Bool) (text : Bytes) :
    (spoil inPlace text).length = text.length := by
  rw [spoil]
  split_ifs
  · exact List.length_set
  · rfl

theorem rejected_spoil (inPlace : Bool) {text : Bytes} (h : Rejected text) :
    Rejected (spoil inPlace text) := by
  rw [spoil]
  split_ifs
  · cases h with
    | masked first second rest h => exact .masked 0 second rest h
    | oversized first b c d e f g h i rest htop => exact .oversized 0 b c d e f g h i rest htop
  · exact h

def Frame.seenFirst (f : Frame) (spoiled : Bool) : UInt8 := if spoiled then 0 else f.first

theorem spoil_frame (spoiled : Bool) (f : Frame) (rest : Bytes) :
    spoil spoiled (f.bytes ++ rest) = f.seenFirst spoiled :: (f.body ++ rest) := by
  rw [spoil, Frame.seenFirst]
  split_ifs <;> rfl

theorem seen_eq_passed {f : Frame} {spoiled : Bool} :
    f.seen (f.seenFirst spoiled) = f.passed ↔ (spoiled → f.opcode = 0) := by
  cases spoiled with
  | false => simpa [Frame.seenFirst] using f.seen_first
  | true =>
    simp only [Frame.seen, Frame.seenFirst, Frame.passed, if_true, Passed.mk.injEq, true_and,
      and_true, forall_const]
    exact eq_comm

/-- From any frame on, the others are passed on as they ought to exactly when they can be read. -/
theorem run_stream (frames : List Frame) (spoiled : Bool) (m : Module)
    (hinitial : m.parser.condition = .initial) (hwrapped : m.parser.wrapped = false)
    (hchain : m.chain = single (spoil spoiled (stream frames tail)))
    (hlength : (stream frames tail).length + config.overhead < 2 ^ 31) (htail : tail = [] ∨ Rejected tail) :
    (∃ m', m.run tools config = .ok m' ∧ m'.passed = m.passed ++ frames.map Frame.passed ∧
        m'.parser.wrapped = false) ↔
      tail = [] ∧ Readable config.useYYScanBuffer spoiled frames := by
  induction frames generalizing m spoiled with
  | nil =>
    rcases htail with rfl | hrejected
    · have hnil : m.chain = [] := by
        rw [hchain, single, if_pos]
        cases spoiled <;> rfl
      rw [run_nil hnil]
      simp [Readable, hwrapped]
    · have hspoil := rejected_spoil spoiled hrejected
      have hnonempty : tail ≠ [] := by
        rintro rfl
        cases hrejected
      have hchain' : m.chain = [spoil spoiled tail] := by
        rw [hchain, single, if_neg]
        · rfl
        · intro hempty
          rw [show stream [] tail = tail from rfl] at hempty
          exact hnonempty (List.length_eq_zero_iff.mp (by rw [← spoil_length spoiled, hempty]; rfl))
      rw [run_rejected hspoil hinitial hchain' (by rw [spoil_length]; exact hlength)]
      simp [hnonempty]
  | cons f frames ih =>
    have hstream : stream (f :: frames) tail = f.bytes ++ stream frames tail := by
      rw [stream, stream, List.map_cons, List.flatten_cons, List.append_assoc]
    have hchain' : m.chain = [f.seenFirst spoiled :: (f.body ++ stream frames tail)] := by
      rw [hchain, hstream, spoil_frame, single, if_neg (List.cons_ne_nil _ _)]
    have hlength' :
        (f.seenFirst spoiled :: (f.body ++ stream frames tail)).length + config.overhead < 2 ^ 31 := by
      rw [hstream] at hlength
      exact hlength
    rw [Readable]
    by_cases hexact : f.Exact
    · obtain ⟨q, hcondition, hkept, hrun⟩ :=
        @run_exact tools config _ _ _ _ hexact hinitial hchain' hlength'
      rw [hrun]
      by_cases hseen : f.seen (f.seenFirst spoiled) = f.passed
      · have hrest : (stream frames tail).length + config.overhead < 2 ^ 31 := by
          rw [List.length_cons, List.length_append] at hlength'
          omega
        have hih := ih config.useYYScanBuffer
          { m with
            parser := q
            chain := single (spoil config.useYYScanBuffer (stream frames tail))
            passed := m.passed ++ [f.seen (f.seenFirst spoiled)] }
          hcondition (hkept.trans hwrapped) rfl hrest
        rw [hseen] at hih ⊢
        rw [List.map_cons, List.append_cons m.passed f.passed (frames.map Frame.passed), hih]
        have hopcode := seen_eq_passed.1 hseen
        tauto
      · have hopcode := fun h => hseen (seen_eq_passed.2 h)
        constructor
        · rintro ⟨m', hm', hpassed, -⟩
          obtain ⟨more, hmore⟩ := run_passed hm'
          rw [hpassed, List.append_assoc, List.append_cancel_left_eq] at hmore
          exact absurd (List.cons.inj hmore).1 hseen
        · rintro ⟨-, -, hzero, -⟩
          exact absurd hzero hopcode
    · constructor
      · rintro ⟨m', hm', hpassed, -⟩
        exact absurd hpassed
          (run_inexact hexact hinitial hchain' hlength' hm' f.passed rfl (frames.map Frame.passed))
      · rintro ⟨-, h, -⟩
        exact absurd h hexact

/-- A buffer is framed exactly if nothing that has to be rejected follows, every frame is exact,
the opcodes behind the first one are zero where the scanner works in place, and the buffer is not
too long for the scanner. -/
theorem framed_iff {capacity : ℕ} {frames : List Frame}
    (hcapacity : (stream frames tail).length + 2 ≤ capacity) (htail : tail = [] ∨ Rejected tail) :
    Framed tools config capacity frames tail ↔
      tail = [] ∧ (∀ f ∈ frames, f.Exact) ∧
        (config.useYYScanBuffer → ∀ f ∈ frames.tail, f.opcode = 0) ∧
        (stream frames tail).length + config.overhead < 2 ^ 31 := by
  have hroom : ¬ capacity - (stream frames tail).length < flexBoundarySize := by
    rw [flexBoundarySize]
    omega
  rw [Framed, Module.dispatch, if_neg hroom]
  dsimp only [List.nil_append]
  by_cases hlength : (stream frames tail).length + config.overhead < 2 ^ 31
  swap
  · rw [run_cons rfl, Module.pass, parse, if_pos (Nat.not_lt.mp hlength)]
    constructor
    · rintro ⟨m, hm, -⟩
      cases hm
    · rintro ⟨-, -, -, h⟩
      exact absurd h hlength
  by_cases hempty : stream frames tail = []
  · have hframes : frames = [] := by
      cases frames with
      | nil => rfl
      | cons f frames => cases hempty
    subst hframes
    obtain rfl : tail = [] := hempty
    rw [run_cons rfl, Module.pass, parse_begun hlength]
    simpa [lex, Parser.begun, bind, Except.bind, stream] using hlength
  · have hchain : ({ chain := [stream frames tail] } : Module).chain =
        single (spoil false (stream frames tail)) := by
      rw [spoil, single, if_neg Bool.false_ne_true, if_neg hempty]
    have hrun := @run_stream tools config tail frames false
      { chain := [stream frames tail] } rfl rfl hchain hlength htail
    rw [readable_iff] at hrun
    simp only [hlength, and_true]
    exact hrun

end Run

def greeting : Frame where
  final := true
  opcode := 1
  form := .short
  payload := [0x48, 0x69]
  isNibble := by decide
  fits := by decide

/-- A ping without data. -/
def ping : Frame where
  final := true
  opcode := 9
  form := .short
  payload := []
  isNibble := by decide
  fits := by decide

theorem greeting_ping_framed :
    Framed StreamTools.split { useYYScanBuffer := false } 64 [greeting, ping] [] := by
  refine (framed_iff (by decide) (.inl rfl)).mpr ⟨rfl, ?_, fun h => absurd h (by decide), by decide⟩
  intro f hf
  rcases List.mem_pair.mp hf with rfl | rfl
  · exact (by decide : 2 ≠ 1)
  · exact (by decide : 0 ≠ 1)

def letter : Frame where
  final := true
  opcode := 1
  form := .short
  payload := [0x48]
  isNibble := by decide
  fits := by decide

/-- The counter of a payload of one octet wraps, and the frame is not passed on. -/
theorem letter_not_framed :
    ¬ Framed StreamTools.split { useYYScanBuffer := false } 64 [letter] [] := by
  rintro ⟨m, hm, hpassed, -⟩
  have hexact : ¬ letter.Exact := fun h => h rfl
  rw [Module.dispatch, if_neg (by decide)] at hm
  exact @run_inexact _ _ _ _ _ _ [] hexact rfl rfl (by decide) hm letter.passed rfl [] hpassed

end ACENetwork.WebSocket
