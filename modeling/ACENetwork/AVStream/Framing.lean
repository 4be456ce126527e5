import ACENetwork.AVStream.Parser

/-!
# Framing of AV streams in arbitrary blocks

The scanner takes the length of a frame from one buffer only, and a frame without data sends
it after 2^32 octets of others. Where it works in place, a body of one octet costs the frame
behind it in the block its type, and a body that comes in several blocks the first octets of those
that it does not end in. The messages come out as they have been sent exactly when none of this
happens and flex has room for the blocks.
-/
namespace ACENetwork.AVStream
open Library

def Scanning.inPlace (scan : Scanning) (front : List (List UInt8)) : Bool :=
  if front = [] then scan.first else scan.next

/-- Flex has room for the blocks that begin within the first `n` octets. -/
def Scanning.Loads (scan : Scanning) (n : ℕ) (blocks : List (List UInt8)) : Prop :=
  ∀ front b back, blocks = front ++ b :: back → front.flatten.length < n →
    scanBegin (scan.inPlace front) b = true

/-- A block of a frame when it has been scanned: `yyinput` has restarted it unless it ends with the
header. -/
def Scanning.leave (scan : Scanning) (front : List (List UInt8)) (b : List UInt8) : List UInt8 :=
  if scan.inPlace front ∧ headerSize < front.flatten.length + b.length then endOfBuffer b else b

def Scanning.leaveAll (scan : Scanning) :
    List (List UInt8) → List (List UInt8) → List (List UInt8)
  | _, [] => []
  | front, b :: back => scan.leave front b :: scan.leaveAll (front ++ [b]) back

theorem length_endOfBuffer (b : List UInt8) : (endOfBuffer b).length = b.length := by
  match b with
  | [] => rfl
  | [_] => rfl
  | _ :: _ :: _ => rfl

namespace Scanning

variable (scan : Scanning) {front back : List (List UInt8)} {b : List UInt8}

theorem length_leave : (scan.leave front b).length = b.length := by
  rw [leave]
  split_ifs
  · exact length_endOfBuffer b
  · rfl

theorem leaveAll_concat : scan.leaveAll front (back ++ [b]) =
    scan.leaveAll front back ++ [scan.leave (front ++ back) b] := by
  induction back generalizing front with
  | nil => simp [leaveAll]
  | cons c back ih =>
    rw [List.cons_append, leaveAll, leaveAll, ih, List.append_assoc, List.cons_append,
      List.nil_append]
    rfl

theorem length_leaveAll : (scan.leaveAll front back).flatten.length = back.flatten.length := by
  induction back generalizing front with
  | nil => rfl
  | cons b back ih =>
    rw [leaveAll, List.flatten_cons, List.flatten_cons, List.length_append, List.length_append, ih,
      length_leave]

end Scanning

namespace Fragments

variable {scan : Scanning} {blocks queue front : List (List UInt8)} {text : List UInt8} {n : ℕ}
  {s s' : Fragments}

/-- The scanner is in the block of a frame behind `front`. -/
structure At (scan : Scanning) (blocks queue front : List (List UInt8)) (s : Fragments) :
    Prop where
  blocks : front ++ (s.matched ++ s.input) :: (s.linked ++ s.queue) = blocks
  left : s.front = scan.leaveAll [] front
  queue : s.queue <:+ queue
  inPlace : s.inPlace = scan.inPlace front
  fits : ∀ front' b back, front ++ [s.matched ++ s.input] = front' ++ b :: back →
    scanBegin (scan.inPlace front') b = true

def Reads (scan : Scanning) (blocks queue : List (List UInt8)) (text : List UInt8)
    (s : Fragments) : Prop :=
  ∃ front, At scan blocks queue front s ∧ text = front.flatten ++ s.matched

section Fill

theorem fill_of_ne (h : s.input ≠ []) : s.fill scan = some s := by
  rw [fill, if_neg h]

theorem fill_switchBuffer (h : s.input = []) (hs : s.switchBuffer scan = some s') :
    s.fill scan = s'.fill scan := by
  rw [fill, if_pos h]
  split
  · rename_i hnone
    rw [hs] at hnone
    cases hnone
  · rename_i hsome
    rw [hs] at hsome
    cases hsome
    rfl

theorem exists_of_fill (h : s.input = []) (hfill : s.fill scan = some s') :
    ∃ s₁, s.switchBuffer scan = some s₁ ∧ s₁.fill scan = some s' := by
  rw [fill, if_pos h] at hfill
  split at hfill
  · cases hfill
  · rename_i s₁ hsome
    exact ⟨s₁, hsome, hfill⟩

/-- What switching to the next block keeps, a search for an octet keeps. -/
theorem fill_keeps {inv : Fragments → Prop}
    (hswitch : ∀ s s', s.input = [] → inv s → s.switchBuffer scan = some s' → inv s')
    (hs : inv s) (hfill : s.fill scan = some s') : inv s' := by
  induction s using fill.induct scan with
  | case1 s hinput hnone =>
    obtain ⟨s₁, hsome, -⟩ := exists_of_fill hinput hfill
    rw [hnone] at hsome
    cases hsome
  | case2 s hinput s₁ hsome ih =>
    rw [fill_switchBuffer hinput hsome] at hfill
    exact ih (hswitch s s₁ hinput hs hsome) hfill
  | case3 s hinput =>
    rw [fill_of_ne hinput] at hfill
    cases hfill
    exact hs

theorem switchBuffer_eq_some (hs : s.switchBuffer scan = some s') :
    ∃ block linked queue, s.linked ++ s.queue = block :: (linked ++ queue) ∧ queue <:+ s.queue ∧
      scanBegin scan.next block = true ∧
      s' = ⟨s.front ++ [s.matched ++ s.input], [], block, scan.next, linked, queue⟩ := by
  obtain ⟨front, matched, input, inPlace, linked, waiting⟩ := s
  cases linked with
  | cons block linked =>
    obtain ⟨hfits, rfl⟩ := load_eq_some.mp hs
    exact ⟨block, linked, waiting, rfl, List.suffix_rfl, hfits, rfl⟩
  | nil =>
    cases waiting with
    | nil => cases hs
    | cons block waiting =>
      obtain ⟨hfits, rfl⟩ := load_eq_some.mp hs
      exact ⟨block, [], waiting, rfl, List.suffix_cons block waiting, hfits, rfl⟩

theorem exists_switchBuffer {block : List UInt8} {tail : List (List UInt8)}
    (hahead : s.linked ++ s.queue = block :: tail) (hfits : scanBegin scan.next block = true) :
    ∃ s', s.switchBuffer scan = some s' ∧ s'.input = block := by
  obtain ⟨front, matched, input, inPlace, linked, waiting⟩ := s
  cases linked with
  | cons b linked =>
    obtain ⟨rfl, -⟩ := List.cons.inj hahead
    exact ⟨_, load_eq_some.mpr ⟨hfits, rfl⟩, rfl⟩
  | nil =>
    obtain rfl : waiting = block :: tail := hahead
    exact ⟨_, load_eq_some.mpr ⟨hfits, rfl⟩, rfl⟩

end Fill

namespace At

theorem prefix_blocks (h : At scan blocks queue front s) :
    front ++ [s.matched ++ s.input] <+: blocks :=
  ⟨s.linked ++ s.queue, by rw [← h.blocks]; simp⟩

theorem take (h : At scan blocks queue front s) {piece input : List UInt8}
    (hinput : s.input = piece ++ input) :
    At scan blocks queue front { s with matched := s.matched ++ piece, input := input } where
  blocks := by
    rw [← h.blocks, hinput]
    simp
  left := h.left
  queue := h.queue
  inPlace := h.inPlace
  fits front' b back hblocks := by
    refine h.fits front' b back ?_
    rw [← hblocks, hinput, List.append_assoc]

theorem next {t : Fragments} (h : At scan blocks queue front s) (hinput : s.input = [])
    (hlinked : t.linked = s.linked) (hqueue : t.queue = s.queue) (hfront : t.front = s.front)
    (hleft : t.matched ++ t.input = scan.leave front s.matched)
    (hs : t.switchBuffer scan = some s') : At scan blocks queue (front ++ [s.matched]) s' := by
  obtain ⟨block, linked, waiting, hahead, hsuffix, hfits, rfl⟩ := switchBuffer_eq_some hs
  rw [hlinked, hqueue] at hahead
  rw [hqueue] at hsuffix
  have hnext : scan.inPlace (front ++ [s.matched]) = scan.next := if_neg (by simp)
  refine ⟨?_, ?_, hsuffix.trans h.queue, hnext.symm, fun front' b back hblocks => ?_⟩
  · rw [← h.blocks, hahead, hinput]
    simp
  · rw [hfront, h.left, hleft, Scanning.leaveAll_concat, List.nil_append]
  · rcases List.eq_nil_or_concat' back with rfl | ⟨back, last, rfl⟩
    · obtain ⟨rfl, hb⟩ := List.append_inj' hblocks rfl
      cases hb
      rw [hnext]
      exact hfits
    · rw [← List.cons_append, ← List.append_assoc] at hblocks
      refine h.fits front' b back ?_
      rw [hinput, List.append_nil]
      exact (List.append_inj' hblocks rfl).1

theorem loads (h : At scan blocks queue front s) (hn : n ≤ (front.flatten ++ s.matched).length) :
    scan.Loads n blocks := by
  intro front' b back hblocks hlen
  have hb : front' ++ [b] <+: blocks := ⟨back, by rw [hblocks]; simp⟩
  rcases List.prefix_or_prefix_of_prefix hb h.prefix_blocks with ⟨tail, htail⟩ | hle
  · exact h.fits front' b tail (by rw [← htail]; simp)
  · rcases List.prefix_concat_iff.mp hle with heq | hbefore
    · exact h.fits front' b [] heq
    · have := (List.IsPrefix.flatten hbefore).length_le
      simp only [List.flatten_append, List.length_append, List.flatten_cons, List.flatten_nil,
        List.length_nil] at this hn
      omega

end At

namespace Reads

theorem flatten (h : Reads scan blocks queue text s) :
    blocks.flatten = text ++ (s.input ++ (s.linked ++ s.queue).flatten) := by
  obtain ⟨front, hat, rfl⟩ := h
  rw [← hat.blocks]
  simp

theorem take (h : Reads scan blocks queue text s) {piece input : List UInt8}
    (hinput : s.input = piece ++ input) : Reads scan blocks queue (text ++ piece)
      { s with matched := s.matched ++ piece, input := input } := by
  obtain ⟨front, hat, rfl⟩ := h
  exact ⟨front, hat.take hinput, List.append_assoc _ _ _⟩

/-- The scanner leaves a block of the header, or one that is empty, as it is. -/
theorem switchBuffer (h : Reads scan blocks queue text s) (hinput : s.input = [])
    (hheader : text.length ≤ headerSize ∨ s.matched = []) (hs : s.switchBuffer scan = some s') :
    Reads scan blocks queue text s' ∧ s'.matched = [] := by
  obtain ⟨front, hat, rfl⟩ := h
  have hleft : s.matched ++ s.input = scan.leave front s.matched := by
    rw [hinput, List.append_nil, Scanning.leave]
    rcases hheader with hheader | hmatched
    · rw [List.length_append] at hheader
      rw [if_neg fun hin => not_lt.mpr hheader hin.2]
    · rw [hmatched]
      split_ifs <;> rfl
  have hat' := hat.next hinput rfl rfl rfl hleft hs
  obtain ⟨block, linked, waiting, -, -, -, rfl⟩ := switchBuffer_eq_some hs
  exact ⟨⟨_, hat', by simp⟩, rfl⟩

theorem restart (h : Reads scan blocks queue text s) (hinput : s.input = [])
    (hbody : headerSize < text.length) (hs : s.restart.switchBuffer scan = some s') :
    Reads scan blocks queue text s' ∧ s'.matched = [] := by
  obtain ⟨front, hat, rfl⟩ := h
  rw [List.length_append] at hbody
  have hat' : At scan blocks queue (front ++ [s.matched]) s' := by
    rw [Fragments.restart] at hs
    split_ifs at hs with hplace
    · refine hat.next (t := { s with matched := endOfBuffer s.matched }) hinput rfl rfl rfl ?_ hs
      rw [Scanning.leave, if_pos ⟨hat.inPlace ▸ hplace, hbody⟩, hinput, List.append_nil]
    · refine hat.next hinput rfl rfl rfl ?_ hs
      rw [Scanning.leave, if_neg fun hin => hplace (hat.inPlace.trans hin.1), hinput,
        List.append_nil]
  obtain ⟨block, linked, waiting, -, -, -, rfl⟩ := switchBuffer_eq_some hs
  exact ⟨⟨_, hat', by simp⟩, rfl⟩

theorem filled (h : Reads scan blocks queue text s)
    (hheader : text.length ≤ headerSize ∨ s.matched = []) (hfill : s.fill scan = some s') :
    Reads scan blocks queue text s' := by
  have hkeeps : Reads scan blocks queue text s' ∧
      (text.length ≤ headerSize ∨ s'.matched = []) := by
    have hswitch : ∀ s s₁, s.input = [] →
        (Reads scan blocks queue text s ∧ (text.length ≤ headerSize ∨ s.matched = [])) →
        s.switchBuffer scan = some s₁ →
          Reads scan blocks queue text s₁ ∧ (text.length ≤ headerSize ∨ s₁.matched = []) := by
      rintro s s₁ hinput ⟨hs, hleft⟩ hswitch
      obtain ⟨hs₁, hmatched⟩ := hs.switchBuffer hinput hleft hswitch
      exact ⟨hs₁, .inr hmatched⟩
    exact fill_keeps hswitch ⟨h, hheader⟩ hfill
  exact hkeeps.1

theorem inputFilled (h : Reads scan blocks queue text s) (hbody : headerSize < text.length)
    (hfill : (if s.input = [] then s.restart else s).fill scan = some s') :
    Reads scan blocks queue text s' := by
  split_ifs at hfill with hinput
  · have hrestarted : s.restart.input = [] := by
      rw [Fragments.restart]
      split_ifs
      · exact hinput
      · exact hinput
    obtain ⟨s₁, hswitch, hfill⟩ := exists_of_fill hrestarted hfill
    obtain ⟨hs₁, hmatched⟩ := h.restart hinput hbody hswitch
    exact hs₁.filled (.inr hmatched) hfill
  · rw [fill_of_ne hinput] at hfill
    cases hfill
    exact h

theorem exists_next (h : Reads scan blocks queue text s) (hinput : s.input = [])
    (hne : ∀ b ∈ blocks, b ≠ []) (hloads : scan.Loads n blocks) (hn : text.length < n)
    {octet : UInt8} {rest : List UInt8} (htext : blocks.flatten = text ++ octet :: rest) :
    ∃ block tail, s.linked ++ s.queue = (octet :: block) :: tail ∧
      scanBegin scan.next (octet :: block) = true := by
  have hahead := List.append_cancel_left (h.flatten.symm.trans htext)
  rw [hinput, List.nil_append] at hahead
  obtain ⟨front, hat, rfl⟩ := h
  have hlater : ∀ b ∈ s.linked ++ s.queue, b ≠ [] := fun b hb =>
    hne b (hat.blocks ▸ List.mem_append_right _ (List.mem_cons_of_mem _ hb))
  obtain ⟨block, tail, hcons, -⟩ := Blocks.exists_cons_of_flatten hlater hahead
  refine ⟨block, tail, hcons, ?_⟩
  have hblocks := hat.blocks
  rw [hcons, hinput] at hblocks
  have hbegin := hloads (front ++ [s.matched]) (octet :: block) tail
    (by rw [← hblocks]; simp) (by simpa using hn)
  simpa [Scanning.inPlace] using hbegin

theorem exists_input (h : Reads scan blocks queue text s) (hinput : s.input ≠ []) {octet : UInt8}
    {rest : List UInt8} (htext : blocks.flatten = text ++ octet :: rest) :
    ∃ input, s.input = octet :: input := by
  have hahead := List.append_cancel_left (h.flatten.symm.trans htext)
  obtain ⟨o, input, hcons⟩ := List.exists_cons_of_ne_nil hinput
  rw [hcons, List.cons_append] at hahead
  obtain ⟨rfl, -⟩ := List.cons.inj hahead
  exact ⟨input, hcons⟩

/-- The octet ahead is found in the current buffer or in the next block. -/
theorem fill (h : Reads scan blocks queue text s) (hheader : text.length ≤ headerSize)
    (hne : ∀ b ∈ blocks, b ≠ []) (hloads : scan.Loads n blocks) (hn : text.length < n)
    {octet : UInt8} {rest : List UInt8} (htext : blocks.flatten = text ++ octet :: rest) :
    ∃ s' input, s.fill scan = some s' ∧ Reads scan blocks queue text s' ∧
      s'.input = octet :: input := by
  by_cases hinput : s.input = []
  · -- the next block is not empty, so that one switch is enough
    obtain ⟨block, tail, hcons, hfits⟩ := h.exists_next hinput hne hloads hn htext
    obtain ⟨s', hs, hs'⟩ := exists_switchBuffer hcons hfits
    refine ⟨s', block, ?_, (h.switchBuffer hinput (.inl hheader) hs).1, hs'⟩
    rw [fill_switchBuffer hinput hs]
    exact fill_of_ne (by simp [hs'])
  · obtain ⟨input, hcons⟩ := h.exists_input hinput htext
    exact ⟨s, input, fill_of_ne hinput, h, hcons⟩

theorem yyinput (h : Reads scan blocks queue text s) (hbody : headerSize < text.length)
    (hne : ∀ b ∈ blocks, b ≠ []) (hloads : scan.Loads n blocks) (hn : text.length < n)
    {octet : UInt8} {rest : List UInt8} (htext : blocks.flatten = text ++ octet :: rest) :
    ∃ s', s.yyinput scan = some (octet, s') ∧ Reads scan blocks queue (text ++ [octet]) s' := by
  obtain ⟨s', input, hfill, hs', hcons⟩ : ∃ s' input,
      (if s.input = [] then s.restart else s).fill scan = some s' ∧
      Reads scan blocks queue text s' ∧ s'.input = octet :: input := by
    by_cases hinput : s.input = []
    · obtain ⟨block, tail, hahead, hfits⟩ := h.exists_next hinput hne hloads hn htext
      have hrestarted : s.restart.input = [] ∧ s.restart.linked = s.linked ∧
          s.restart.queue = s.queue := by
        rw [Fragments.restart]
        split_ifs
        · exact ⟨hinput, rfl, rfl⟩
        · exact ⟨hinput, rfl, rfl⟩
      obtain ⟨hempty, hlinked, hqueue⟩ := hrestarted
      obtain ⟨s', hs, hs'⟩ := exists_switchBuffer (s := s.restart)
        (by rw [hlinked, hqueue]; exact hahead) hfits
      refine ⟨s', block, ?_, (h.restart hinput hbody hs).1, hs'⟩
      rw [if_pos hinput, fill_switchBuffer hempty hs]
      exact fill_of_ne (by simp [hs'])
    · obtain ⟨input, hcons⟩ := h.exists_input hinput htext
      refine ⟨s, input, ?_, h, hcons⟩
      rw [if_neg hinput, fill_of_ne hinput]
  refine ⟨{ s' with matched := s'.matched ++ [octet], input := input }, ?_, hs'.take hcons⟩
  rw [Fragments.yyinput, hfill, Option.bind_some, hcons]

theorem skip (h : Reads scan blocks queue text s) (hbody : headerSize < text.length)
    (hne : ∀ b ∈ blocks, b ≠ []) (hloads : scan.Loads n blocks) {piece rest : List UInt8}
    (hn : text.length + piece.length ≤ n) (htext : blocks.flatten = text ++ (piece ++ rest)) :
    ∃ s', Fragments.skip scan piece.length s = some s' ∧
      Reads scan blocks queue (text ++ piece) s' := by
  induction piece generalizing text s with
  | nil => exact ⟨s, rfl, by simpa using h⟩
  | cons octet piece ih =>
    rw [List.length_cons] at hn
    obtain ⟨s₁, hinput, hs₁⟩ := h.yyinput hbody hne hloads (by omega) htext
    obtain ⟨s₂, hskip, hs₂⟩ := ih hs₁ (by simp; omega) (by simp; omega) (by simpa using htext)
    refine ⟨s₂, ?_, by simpa using hs₂⟩
    rw [List.length_cons, Fragments.skip, hinput]
    exact hskip

/-- The current buffer reaches `k` octets ahead unless a block ends before. -/
theorem le_length_iff (h : Reads scan blocks queue text s) (hinput : s.input ≠ []) (k : ℕ) :
    k ≤ s.input.length ↔
      ∀ n, text.length < n → n < text.length + k → ¬ Blocks.Boundary n blocks := by
  obtain ⟨front, hat, rfl⟩ := h
  have hlen : (front ++ [s.matched ++ s.input]).flatten.length =
      (front.flatten ++ s.matched).length + s.input.length := by
    simp
    omega
  have hpos := List.length_pos_iff.mpr hinput
  constructor
  · rintro hk n hlow hhigh ⟨front', hfront, rfl⟩
    rcases List.prefix_or_prefix_of_prefix hfront hat.prefix_blocks with hle | hle
    · rcases List.prefix_concat_iff.mp hle with heq | hbefore
      · rw [heq] at hhigh
        omega
      · have := (List.IsPrefix.flatten hbefore).length_le
        rw [List.length_append] at hlow
        omega
    · have := (List.IsPrefix.flatten hle).length_le
      omega
  · intro hnone
    by_contra hk
    exact hnone _ (by omega) (by omega) ⟨_, hat.prefix_blocks, hlen⟩

theorem skip_eq_some (h : Reads scan blocks queue text s) (hbody : headerSize < text.length)
    (hskip : Fragments.skip scan n s = some s') :
    ∃ piece, piece.length = n ∧ Reads scan blocks queue (text ++ piece) s' := by
  induction n generalizing text s with
  | zero =>
    cases hskip
    exact ⟨[], rfl, by simpa using h⟩
  | succ n ih =>
    obtain ⟨⟨octet, s₁⟩, hinput, hskip⟩ := Option.bind_eq_some_iff.mp hskip
    obtain ⟨s₂, hfill, hinput⟩ := Option.bind_eq_some_iff.mp hinput
    split at hinput
    · cases hinput
    · rename_i o input heq
      cases hinput
      obtain ⟨piece, rfl, hs'⟩ :=
        ih ((h.inputFilled hbody hfill).take (show s₂.input = [octet] ++ input from heq))
          (by simp; omega) hskip
      exact ⟨octet :: piece, rfl, by simpa using hs'⟩

end Reads

/-- Nothing of the current buffer is left where a block ends. -/
theorem At.input_eq_nil_iff (h : At scan blocks queue front s) (hmatched : s.matched ≠ []) :
    s.input = [] ↔ Blocks.Boundary (front.flatten ++ s.matched).length blocks := by
  have hlen : (front ++ [s.matched ++ s.input]).flatten.length =
      (front.flatten ++ s.matched).length + s.input.length := by
    simp
    omega
  have hpos := List.length_pos_iff.mpr hmatched
  constructor
  · intro hinput
    exact ⟨_, h.prefix_blocks, by rw [hlen, hinput, List.length_nil, Nat.add_zero]⟩
  · rintro ⟨front', hfront, hcut⟩
    rw [← List.length_eq_zero_iff]
    rcases List.prefix_or_prefix_of_prefix hfront h.prefix_blocks with hle | hle
    · rcases List.prefix_concat_iff.mp hle with heq | hbefore
      · rw [heq] at hcut
        omega
      · have := (List.IsPrefix.flatten hbefore).length_le
        rw [List.length_append] at hcut
        omega
    · have := (List.IsPrefix.flatten hle).length_le
      omega

end Fragments

section Keeping

variable {scan : Scanning} {front back blocks queue : List (List UInt8)} {b : List UInt8} {n : ℕ}
  {s : Fragments}

/-- A block of a body of which flex has replaced the beginning, held null octets there. -/
def Scanning.Keeps (scan : Scanning) (n : ℕ) (blocks : List (List UInt8)) : Prop :=
  scan.next = true → ∀ front b back, blocks = front ++ b :: back →
    headerSize ≤ front.flatten.length → front.flatten.length + b.length < n →
      ∀ octet ∈ b.take 2, octet = 0

def WholeLength (blocks : List (List UInt8)) : Prop :=
  ∀ n, 1 < n → n < 5 → ¬ Blocks.Boundary n blocks

theorem endOfBuffer_eq_iff : endOfBuffer b = b ↔ ∀ octet ∈ b.take 2, octet = 0 := by
  match b with
  | [] => simp [endOfBuffer]
  | [_] => simp [endOfBuffer, eq_comm]
  | a :: c :: _ =>
    rw [endOfBuffer, List.cons_eq_cons, List.cons_eq_cons]
    simp [eq_comm (a := (0 : UInt8))]

theorem drop_endOfBuffer (hn : 2 ≤ n) : (endOfBuffer b).drop n = b.drop n := by
  obtain ⟨k, rfl⟩ := Nat.exists_eq_add_of_le' hn
  match b with
  | [] => rfl
  | [_] => simp [endOfBuffer]
  | _ :: _ :: _ => rfl

theorem drop_leave_iff (hwhole : front.flatten.length < headerSize → front.flatten.length ≤ 1)
    (hlong : headerSize < front.flatten.length + b.length) :
    (scan.leave front b).drop (headerSize - front.flatten.length) =
        b.drop (headerSize - front.flatten.length) ↔
      (scan.next = true → headerSize ≤ front.flatten.length → ∀ octet ∈ b.take 2, octet = 0) := by
  rw [Scanning.leave]
  rcases Nat.lt_or_ge front.flatten.length headerSize with hlt | hge
  · have hone := hwhole hlt
    refine iff_of_true ?_ fun _ hle => absurd hle (not_le.mpr hlt)
    split_ifs
    · exact drop_endOfBuffer (by simp only [headerSize]; omega)
    · rfl
  · have hne : front ≠ [] := by
      rintro rfl
      simp [headerSize] at hge
    rw [Nat.sub_eq_zero_of_le hge, List.drop_zero, List.drop_zero, Scanning.inPlace, if_neg hne]
    cases scan.next with
    | false => simp
    | true =>
      rw [if_pos ⟨rfl, hlong⟩, endOfBuffer_eq_iff]
      exact ⟨fun h _ _ => h, fun h => h rfl hge⟩

theorem drop_leaveAll_iff
    (hwhole : ∀ back', back' <+: back → (front ++ back').flatten.length < headerSize →
      (front ++ back').flatten.length ≤ 1) :
    (scan.leaveAll front back).flatten.drop (headerSize - front.flatten.length) =
        back.flatten.drop (headerSize - front.flatten.length) ↔
      (scan.next = true → ∀ back' b tail, back = back' ++ b :: tail →
        headerSize ≤ (front ++ back').flatten.length → ∀ octet ∈ b.take 2, octet = 0) := by
  induction back generalizing front with
  | nil => simp [Scanning.leaveAll]
  | cons b back ih =>
    have hfront : front.flatten.length < headerSize → front.flatten.length ≤ 1 := by
      simpa using hwhole [] List.nil_prefix
    have hwhole' : ∀ back', back' <+: back →
        (front ++ [b] ++ back').flatten.length < headerSize →
        (front ++ [b] ++ back').flatten.length ≤ 1 := fun back' hback => by
      simpa using hwhole (b :: back') ((List.prefix_cons_inj b).mpr hback)
    have ih := ih hwhole'
    have hlength : (front ++ [b]).flatten.length = front.flatten.length + b.length := by simp
    rw [hlength] at ih
    have hcases : (scan.next = true → ∀ back' c tail, b :: back = back' ++ c :: tail →
        headerSize ≤ (front ++ back').flatten.length → ∀ octet ∈ c.take 2, octet = 0) ↔
        (scan.next = true → headerSize ≤ front.flatten.length → ∀ octet ∈ b.take 2, octet = 0) ∧
        (scan.next = true → ∀ back' c tail, back = back' ++ c :: tail →
          headerSize ≤ (front ++ [b] ++ back').flatten.length →
            ∀ octet ∈ c.take 2, octet = 0) := by
      constructor
      · intro h
        refine ⟨fun hnext hle => h hnext [] b back rfl (by simpa using hle), ?_⟩
        intro hnext back' c tail hback hle
        exact h hnext (b :: back') c tail (by rw [hback]; rfl) (by simpa using hle)
      · rintro ⟨hb, hback⟩ hnext back' c tail hcons hle
        cases back' with
        | nil =>
          obtain ⟨rfl, rfl⟩ := List.cons.inj hcons
          exact hb hnext (by simpa using hle)
        | cons b' back' =>
          obtain ⟨rfl, htail⟩ := List.cons.inj hcons
          exact hback hnext back' c tail htail (by simpa using hle)
    rw [hcases, ← ih, Scanning.leaveAll, List.flatten_cons, List.flatten_cons, List.drop_append,
      List.drop_append, scan.length_leave]
    rcases Nat.lt_or_ge headerSize (front.flatten.length + b.length) with hlong | hshort
    · rw [← drop_leave_iff hfront hlong, Nat.sub_eq_zero_of_le (show headerSize -
        front.flatten.length ≤ b.length by omega), Nat.sub_eq_zero_of_le hlong.le]
      simp only [List.drop_zero]
      constructor
      · exact fun h => List.append_inj h (by simp [scan.length_leave])
      · rintro ⟨hleft, hright⟩
        rw [hleft, hright]
    · have hsame : scan.leave front b = b := if_neg fun h => not_lt.mpr hshort h.2
      have hnever : scan.next = true → headerSize ≤ front.flatten.length →
          ∀ octet ∈ b.take 2, octet = 0 := by
        intro _ hle
        obtain rfl : b = [] := List.length_eq_zero_iff.mp (by omega)
        simp
      rw [hsame, List.drop_eq_nil_of_le (show b.length ≤ headerSize - front.flatten.length by
        omega), Nat.sub_sub, List.nil_append, List.nil_append, and_iff_right hnever]

/-- A body that ends in the block behind `front` comes out as it has been sent. -/
theorem Fragments.At.keeps_iff (h : s.At scan blocks queue front) (hwhole : WholeLength blocks)
    (hmatched : s.matched ≠ []) (hn : n = (front.flatten ++ s.matched).length) :
    (s.front.flatten ++ s.matched).drop headerSize =
      (front.flatten ++ s.matched).drop headerSize ↔ scan.Keeps n blocks := by
  have hlength : (scan.leaveAll [] front).flatten.length = front.flatten.length :=
    scan.length_leaveAll
  have hkept : (scan.leaveAll [] front).flatten.drop (headerSize - 0) =
      front.flatten.drop (headerSize - 0) ↔ (scan.next = true →
        ∀ back' b tail, front = back' ++ b :: tail →
          headerSize ≤ ([] ++ back').flatten.length → ∀ octet ∈ b.take 2, octet = 0) := by
    refine @drop_leaveAll_iff scan [] front fun back' hback hlt => ?_
    rw [List.nil_append] at hlt ⊢
    by_contra hlong
    exact hwhole _ (not_le.mp hlong) hlt
      ⟨back', hback.trans ((List.prefix_append _ _).trans h.prefix_blocks), rfl⟩
  rw [Nat.sub_zero] at hkept
  have hdrop : ((scan.leaveAll [] front).flatten ++ s.matched).drop headerSize =
      (front.flatten ++ s.matched).drop headerSize ↔
      (scan.leaveAll [] front).flatten.drop headerSize = front.flatten.drop headerSize := by
    rw [List.drop_append, List.drop_append, hlength]
    exact List.append_left_inj _
  rw [h.left, hdrop, hkept, Scanning.Keeps]
  refine imp_congr_right fun _ => ?_
  constructor
  · intro hall front' b back hblocks hheader hlt octet hoctet
    -- the block is one of those in front of the end of the body
    have hb : front' ++ [b] <+: blocks := ⟨back, by rw [hblocks]; simp⟩
    have hshort : ¬ (front.flatten ++ s.matched).length ≤ (front' ++ [b]).flatten.length := by
      rw [← hn, List.flatten_append, List.length_append, List.flatten_singleton]
      exact not_le.mpr hlt
    rcases List.prefix_or_prefix_of_prefix hb h.prefix_blocks with hle | hle
    · rcases List.prefix_concat_iff.mp hle with heq | ⟨tail, htail⟩
      · rw [heq] at hshort
        refine absurd ?_ hshort
        simp
      · exact hall front' b tail (by rw [← htail]; simp) (by simpa using hheader) octet hoctet
    · refine absurd ?_ hshort
      have := (List.IsPrefix.flatten hle).length_le
      simp only [List.flatten_append, List.length_append, List.flatten_cons, List.flatten_nil,
        List.length_nil] at this ⊢
      omega
  · intro hall back' b tail hfront hheader octet hoctet
    rw [List.nil_append] at hheader
    refine hall back' b (tail ++ (s.matched ++ s.input) :: (s.linked ++ s.queue)) ?_ hheader ?_
      octet hoctet
    · rw [← h.blocks, hfront]
      simp
    · have hpos := List.length_pos_iff.mpr hmatched
      rw [hn, hfront]
      simp only [List.flatten_append, List.length_append, List.flatten_cons]
      omega

end Keeping

section Lex

variable {scan : Scanning} {o : ByteOrder} {blocks queue : List (List UInt8)}
  {text rest : List UInt8} {d d' : Driver} {s s' : Fragments} {n : ℕ}

theorem lex_type (o : ByteOrder) (hs : s.Reads scan blocks queue text)
    (hheader : text.length ≤ headerSize) (hne : ∀ b ∈ blocks, b ≠ []) (hloads : scan.Loads n blocks)
    (hn : text.length < n) (hd : d.condition = .initial ∨ d.condition = .header) {octet : UInt8}
    (htext : blocks.flatten = text ++ octet :: rest) :
    ∃ s', lex scan o d s = some (.type octet, { d with condition := .length }, s') ∧
      s'.Reads scan blocks queue (text ++ [octet]) := by
  obtain ⟨s', input, hfill, hs', hinput⟩ := hs.fill hheader hne hloads hn htext
  refine ⟨{ s' with matched := s'.matched ++ [octet], input := input }, ?_, hs'.take hinput⟩
  rw [lex, hfill, Option.bind_some, hinput]
  rcases hd with hd | hd
  · rw [hd]
  · rw [hd]

theorem lex_length (o : ByteOrder) (hs : s.Reads scan blocks queue text)
    (hheader : text.length ≤ headerSize) (hne : ∀ b ∈ blocks, b ≠ []) (hloads : scan.Loads n blocks)
    (hn : text.length < n) (hd : d.condition = .length) {length : UInt32}
    (htext : blocks.flatten = text ++ (o.store 4 length.toNat ++ rest))
    (hwhole : ∀ n, text.length < n → n < text.length + 4 → ¬ Blocks.Boundary n blocks) :
    ∃ s', lex scan o d s = some (.length length, { d with condition := .body }, s') ∧
      s'.Reads scan blocks queue (text ++ o.store 4 length.toNat) := by
  obtain ⟨o₀, o₁, o₂, o₃, hstore⟩ : ∃ o₀ o₁ o₂ o₃, o.store 4 length.toNat = [o₀, o₁, o₂, o₃] := by
    have hlen := o.length_store 4 length.toNat
    match h : o.store 4 length.toNat, hlen with
    | [o₀, o₁, o₂, o₃], _ => exact ⟨o₀, o₁, o₂, o₃, rfl⟩
  rw [hstore] at htext ⊢
  obtain ⟨s', input, hfill, hs', hinput⟩ := hs.fill hheader hne hloads hn htext
  have hlong : 4 ≤ s'.input.length := (hs'.le_length_iff (by simp [hinput]) 4).mpr hwhole
  have hahead := List.append_cancel_left (hs'.flatten.symm.trans htext)
  obtain ⟨input, hinput⟩ : ∃ input, s'.input = [o₀, o₁, o₂, o₃] ++ input := by
    have htake : [o₀, o₁, o₂, o₃] = s'.input.take 4 := by
      have := congrArg (List.take 4) hahead
      rw [List.take_append_of_le_length hlong] at this
      exact this.symm
    exact ⟨s'.input.drop 4, by rw [htake, List.take_append_drop]⟩
  refine ⟨_, ?_, hs'.take hinput⟩
  have hload : UInt32.ofNat (o.load [o₀, o₁, o₂, o₃]) = length := by
    rw [← hstore, ByteOrder.load_store,
      Nat.mod_eq_of_lt (show length.toNat < 256 ^ 4 from length.toNat_lt), UInt32.ofNat_toNat]
  rw [lex, hfill, Option.bind_some, hinput, hd, ← hload]
  rfl

theorem toNat_sub_one {missing : UInt32} {k : ℕ} (h : missing.toNat = k + 1) :
    (missing - 1).toNat = k := by
  have hone : (1 : UInt32) ≤ missing := UInt32.le_iff_toNat_le.mpr (by
    rw [h]
    exact Nat.le_add_left 1 k)
  rw [UInt32.toNat_sub_of_le _ _ hone, h]
  rfl

theorem skip_matched (hs : s.matched ≠ []) (hskip : Fragments.skip scan n s = some s') :
    s'.matched ≠ [] := by
  induction n generalizing s with
  | zero =>
    cases hskip
    exact hs
  | succ n ih =>
    obtain ⟨⟨octet, s₁⟩, hinput, hskip⟩ := Option.bind_eq_some_iff.mp hskip
    obtain ⟨s₂, -, hinput⟩ := Option.bind_eq_some_iff.mp hinput
    refine ih ?_ hskip
    split at hinput
    · cases hinput
    · cases hinput
      exact List.append_ne_nil_of_right_ne_nil _ (List.cons_ne_nil _ _)

theorem lex_body (o : ByteOrder) (hs : s.Reads scan blocks queue text)
    (hheader : text.length = headerSize) (hne : ∀ b ∈ blocks, b ≠ []) (hloads : scan.Loads n blocks)
    (hd : d.condition = .body) {data : List UInt8} (hn : text.length + data.length ≤ n)
    (hdata : data ≠ []) (hmissing : d.missing.toNat = data.length)
    (htext : blocks.flatten = text ++ (data ++ rest)) :
    ∃ s', lex scan o d s = some (.body d.missing, { d with condition := .header },
        if data.length = 1 then s'.terminate else s') ∧
      s'.Reads scan blocks queue (text ++ data) ∧ s'.matched ≠ [] := by
  obtain ⟨octet, data, rfl⟩ := List.exists_cons_of_ne_nil hdata
  rw [List.length_cons] at hn hmissing
  obtain ⟨s₁, input, hfill, hs₁, hinput⟩ := hs.fill hheader.le hne hloads (by omega) htext
  have hs₁ := hs₁.take (show s₁.input = [octet] ++ input from hinput)
  have hcount := toNat_sub_one hmissing
  cases data with
  | nil =>
    refine ⟨_, ?_, hs₁, by simp⟩
    rw [lex, hfill, Option.bind_some, hinput, hd]
    simp only [hcount, List.length_cons, List.length_nil, if_true]
  | cons octet' data =>
    have htext : blocks.flatten = text ++ [octet] ++ (octet' :: data ++ rest) := by
      simpa using htext
    have hlength : (text ++ [octet]).length = headerSize + 1 := by
      rw [List.length_append, hheader, List.length_singleton]
    have hn : (text ++ [octet]).length + (octet' :: data).length ≤ n := by
      rw [hlength, ← hheader]
      simp only [List.length_cons] at hn ⊢
      omega
    obtain ⟨s₂, hskip, hs₂⟩ := hs₁.skip (by omega) hne hloads hn htext
    refine ⟨s₂, ?_, by simpa using hs₂, skip_matched (by simp) hskip⟩
    rw [lex, hfill, Option.bind_some, hinput, hd]
    rw [List.length_cons] at hskip
    simp only [hcount, List.length_cons, hskip, Option.map_some, Nat.succ_ne_zero, if_false,
      Nat.add_eq_right]

theorem reads_of_lex_type (hs : s.Reads scan blocks queue text)
    (hheader : text.length ≤ headerSize) {type : UInt8}
    (hlex : lex scan o d s = some (.type type, d', s')) :
    s'.Reads scan blocks queue (text ++ [type]) ∧ d' = { d with condition := .length } := by
  obtain ⟨s₁, hfill, hlex⟩ := Option.bind_eq_some_iff.mp hlex
  have hs₁ := hs.filled (.inl hheader) hfill
  split at hlex
  · cases hlex
  · rename_i hinput
    cases hlex
    exact ⟨hs₁.take hinput, rfl⟩
  · rename_i hinput
    cases hlex
    exact ⟨hs₁.take hinput, rfl⟩
  · cases hlex
  · cases hlex
  · dsimp only at hlex
    split at hlex
    · cases hlex
    · obtain ⟨s₂, -, hs₂⟩ := Option.map_eq_some_iff.mp hlex
      cases hs₂

theorem reads_of_lex_length (hs : s.Reads scan blocks queue text)
    (hheader : text.length ≤ headerSize) {length : UInt32}
    (hlex : lex scan o d s = some (.length length, d', s')) :
    (∃ piece, piece.length = 4 ∧ length = UInt32.ofNat (o.load piece) ∧
      s'.Reads scan blocks queue (text ++ piece)) ∧
      (∀ n, text.length < n → n < text.length + 4 → ¬ Blocks.Boundary n blocks) ∧
      d' = { d with condition := .body } := by
  obtain ⟨s₁, hfill, hlex⟩ := Option.bind_eq_some_iff.mp hlex
  have hs₁ := hs.filled (.inl hheader) hfill
  split at hlex
  · cases hlex
  · cases hlex
  · cases hlex
  · rename_i o₀ o₁ o₂ o₃ input _ hinput
    cases hlex
    refine ⟨⟨[o₀, o₁, o₂, o₃], rfl, rfl, hs₁.take hinput⟩, ?_, rfl⟩
    exact (hs₁.le_length_iff (by simp [hinput]) 4).mp (by simp [hinput])
  · cases hlex
  · dsimp only at hlex
    split at hlex
    · cases hlex
    · obtain ⟨s₂, -, hs₂⟩ := Option.map_eq_some_iff.mp hlex
      cases hs₂

theorem loads_of_lex_body (hs : s.Reads scan blocks queue text) (hheader : text.length = headerSize)
    {missing : UInt32} (hlex : lex scan o d s = some (.body missing, d', s')) :
    scan.Loads (text.length + ((d.missing - 1).toNat + 1)) blocks ∧ missing = d.missing ∧
      d' = { d with condition := .header } := by
  obtain ⟨s₁, hfill, hlex⟩ := Option.bind_eq_some_iff.mp hlex
  have hs₁ := hs.filled (.inl hheader.le) hfill
  split at hlex
  · cases hlex
  · cases hlex
  · cases hlex
  · cases hlex
  · cases hlex
  · rename_i octet input _ hinput
    have hs₂ := hs₁.take (show s₁.input = [octet] ++ input from hinput)
    dsimp only at hlex
    split at hlex
    · rename_i hzero
      cases hlex
      obtain ⟨front, hat, htext⟩ := hs₂
      refine ⟨hat.loads ?_, rfl, rfl⟩
      rw [← htext, hzero]
      simp
    · rename_i k hcount
      obtain ⟨s₃, hskip, hs₃⟩ := Option.map_eq_some_iff.mp hlex
      cases hs₃
      obtain ⟨piece, hpiece, front, hat, htext⟩ :=
        hs₂.skip_eq_some (by rw [List.length_append, hheader]; simp) hskip
      refine ⟨hat.loads ?_, rfl, rfl⟩
      rw [← htext, hcount, List.length_append, List.length_append, hpiece, List.length_singleton]
      omega

end Lex

section MessageCb

variable {ndebug : Bool} {n : ℕ} {chain : List (List UInt8)}

theorem frameMessage_ok (ndebug : Bool) (hne : chain ≠ []) (hn : n ≤ chain.flatten.length) :
    frameMessage ndebug n chain = .ok (Blocks.upTo n chain, Blocks.behind n chain) := by
  induction chain generalizing n with
  | nil => exact absurd rfl hne
  | cons block cont ih =>
    rw [List.flatten_cons, List.length_append] at hn
    rw [frameMessage]
    rcases Nat.lt_or_ge block.length n with hlen | hlen
    · have hcont : cont ≠ [] := by
        rintro rfl
        simp at hn
        omega
      rw [if_pos hlen, ih hcont (by omega), Blocks.upTo_of_lt hlen, Blocks.behind_of_lt hlen]
      rfl
    · rw [if_neg (not_lt.mpr hlen), Blocks.upTo_of_le hlen, Blocks.behind_of_le hlen,
        Blocks.remaining]
      by_cases heq : n = block.length
      · rw [if_pos heq, if_pos (by simp [heq]), List.take_of_length_le heq.ge]
        rfl
      · rw [if_neg heq, if_neg (by simp; omega)]
        rfl

theorem frameMessage_eq_upTo {message head : List (List UInt8)}
    (h : frameMessage ndebug n chain = .ok (message, head)) : message = Blocks.upTo n chain := by
  induction chain generalizing n message with
  | nil => cases h
  | cons block cont ih =>
    rw [frameMessage] at h
    rcases Nat.lt_or_ge block.length n with hlen | hlen
    · rw [if_pos hlen] at h
      rw [Blocks.upTo_of_lt hlen]
      cases hrest : frameMessage ndebug (n - block.length) cont with
      | error e =>
        rw [hrest] at h
        cases h
      | ok result =>
        rw [hrest] at h
        cases h
        rw [ih hrest]
    · rw [if_neg (not_lt.mpr hlen)] at h
      rw [Blocks.upTo_of_le hlen]
      split at h
      · rename_i heq
        cases h
        rw [List.take_of_length_le heq.ge]
      · cases h
        rfl

theorem frameData_ok (ndebug : Bool) (hn : n < chain.flatten.length) :
    ∃ message, frameData ndebug n chain = .ok message ∧
      message.flatten = chain.flatten.drop n := by
  induction chain generalizing n with
  | nil => simp at hn
  | cons block cont ih =>
    rw [List.flatten_cons, List.length_append] at hn
    rw [frameData]
    by_cases hzero : n = 0
    · exact ⟨block :: cont, if_pos hzero, by simp [hzero]⟩
    rw [if_neg hzero]
    by_cases hlen : block.length ≤ n
    · obtain ⟨message, hmessage, hflatten⟩ := ih (n := n - block.length) (by omega)
      refine ⟨[] :: message, ?_, ?_⟩
      · rw [if_pos hlen, hmessage]
        rfl
      · rw [List.flatten_cons, List.flatten_cons, List.drop_append, List.drop_of_length_le hlen,
          hflatten]
    · refine ⟨block.drop n :: cont, if_neg hlen, ?_⟩
      rw [List.flatten_cons, List.flatten_cons,
        List.drop_append_of_le_length (Nat.le_of_not_le hlen)]

/-- A message that ends with its header leaves no block for the data. -/
theorem frameData_upTo (hn : 0 < n) :
    frameData false n (Blocks.upTo n chain) = .error .assertion := by
  induction chain generalizing n with
  | nil => rfl
  | cons block cont ih =>
    rcases Nat.lt_or_ge block.length n with hlen | hlen
    · rw [Blocks.upTo_of_lt hlen, frameData, if_neg hn.ne', if_pos hlen.le, ih (by omega)]
      rfl
    · rw [Blocks.upTo_of_le hlen, frameData, if_neg hn.ne', if_pos (by simp)]
      rfl

variable {d : Driver} {s : Fragments}

theorem behind_current {front back : List (List UInt8)} {matched : List UInt8}
    (hmatched : matched ≠ []) (input : List UInt8) :
    Blocks.behind (front.flatten ++ matched).length (front ++ (matched ++ input) :: back) =
      Blocks.remaining input back := by
  have hpos := List.length_pos_iff.mpr hmatched
  induction front with
  | nil =>
    rw [List.nil_append, List.flatten_nil, List.nil_append, Blocks.behind_of_le (by simp),
      List.drop_left]
  | cons b front ih =>
    rw [List.cons_append, List.flatten_cons, List.append_assoc, List.length_append,
      Blocks.behind_of_lt (by rw [List.length_append]; omega), Nat.add_sub_cancel_left]
    exact ih

/-- A message with data is divided from the chain, and loses its header. -/
theorem messageCb_ok (ndebug : Bool) (hmatched : s.matched ≠ [])
    (hlen : (s.front.flatten ++ s.matched).length = headerSize + d.header.length.toNat)
    (hpos : 0 < d.header.length.toNat) :
    ∃ message, messageCb ndebug d s =
        .ok (.accepted d.header message d (Blocks.remaining s.input s.linked) s.queue) ∧
      message.flatten = (s.front.flatten ++ s.matched).drop headerSize := by
  set chain := s.front ++ (s.matched ++ s.input) :: s.linked with hchain
  have hne : chain ≠ [] := by simp [hchain]
  have hflatten : chain.flatten =
      s.front.flatten ++ s.matched ++ (s.input ++ s.linked.flatten) := by
    rw [hchain]
    simp
  have hle : (s.front.flatten ++ s.matched).length ≤ chain.flatten.length := by
    rw [hflatten]
    exact (List.prefix_append _ _).length_le
  have hcut := frameMessage_ok ndebug hne hle
  have htext : (Blocks.upTo (s.front.flatten ++ s.matched).length chain).flatten =
      s.front.flatten ++ s.matched := by
    rw [Blocks.flatten_upTo, hflatten, List.take_left]
  have hlong : headerSize <
      (Blocks.upTo (s.front.flatten ++ s.matched).length chain).flatten.length := by
    rw [htext]
    omega
  obtain ⟨message, hmessage, hdrop⟩ := frameData_ok ndebug hlong
  rw [htext] at hdrop
  have hbehind : Blocks.behind (s.front.flatten ++ s.matched).length chain =
      Blocks.remaining s.input s.linked := behind_current hmatched s.input
  refine ⟨message, ?_, hdrop⟩
  rw [messageCb, ← hlen, ← hchain, hcut]
  dsimp only [bind, Except.bind]
  rw [hmessage, hbehind]
  rfl

theorem messageCb_empty (hzero : d.header.length = 0) (outcome : Outcome) :
    messageCb false d s ≠ .ok outcome := by
  intro h
  rw [messageCb, hzero] at h
  cases hcut : frameMessage false (headerSize + UInt32.toNat 0)
      (s.front ++ (s.matched ++ s.input) :: s.linked) with
  | error e =>
    rw [hcut] at h
    cases h
  | ok result =>
    rw [hcut] at h
    obtain ⟨message, head⟩ := result
    cases frameMessage_eq_upTo hcut
    dsimp only [bind, Except.bind] at h
    rw [show headerSize + UInt32.toNat 0 = headerSize from rfl,
      frameData_upTo (show 0 < headerSize from Nat.succ_pos 4)] at h
    cases h

end MessageCb

section Parse

variable {ndebug : Bool} {scan : Scanning} {o : ByteOrder}
  {blocks headFragment queue front : List (List UInt8)} {text data rest : List UInt8} {d : Driver}
  {h : Header} {s : Fragments}

def Scanning.bodyInPlace (scan : Scanning) (blocks : List (List UInt8)) : Bool :=
  if headerSize < (blocks.headD []).length then scan.first else scan.next

/-- The null octet behind the body of the first frame replaces another octet. -/
def Spoils (scan : Scanning) (data rest : List UInt8) (blocks : List (List UInt8)) : Prop :=
  data.length = 1 ∧ scan.bodyInPlace blocks = true ∧ ¬ Blocks.Boundary (headerSize + 1) blocks ∧
    rest.head? ≠ some 0

theorem length_bytes (o : ByteOrder) (h : Header) : (h.bytes o).length = headerSize := by
  simp [Header.bytes, headerSize]

theorem reads_load {buffer : List UInt8} {linked : List (List UInt8)}
    (hload : Fragments.load scan.first [] buffer linked queue = some s) :
    s.Reads scan (buffer :: linked ++ queue) queue [] := by
  obtain ⟨hfits, rfl⟩ := Fragments.load_eq_some.mp hload
  refine ⟨[], ⟨rfl, rfl, List.suffix_rfl, rfl, fun front b back hblocks => ?_⟩, rfl⟩
  obtain ⟨rfl, hblock⟩ | ⟨front, rfl, -⟩ := List.cons_eq_append_iff.mp hblocks
  · cases hblock
    exact hfits
  · simp at hblocks

/-- The buffer with a body of one octet is the first block exactly if this reaches behind the
header. -/
theorem inPlace_eq_bodyInPlace (hs : s.At scan blocks queue front) (hmatched : s.matched ≠ [])
    (hlen : (front.flatten ++ s.matched).length = headerSize + 1) :
    s.inPlace = scan.bodyInPlace blocks := by
  have hpos := List.length_pos_iff.mpr hmatched
  rw [List.length_append] at hlen
  rw [hs.inPlace, Scanning.inPlace, Scanning.bodyInPlace, ← hs.blocks]
  cases front with
  | nil =>
    rw [List.flatten_nil, List.length_nil] at hlen
    rw [if_pos rfl, if_pos]
    simp only [List.nil_append, List.headD_cons, List.length_append]
    omega
  | cons b front =>
    rw [List.flatten_cons, List.length_append] at hlen
    rw [if_neg (List.cons_ne_nil b front), if_neg]
    simp only [List.cons_append, List.headD_cons]
    omega

/-- What the null octet behind a match leaves of the buffer. -/
theorem terminate_keeps (s : Fragments) : s.terminate.front = s.front ∧
    s.terminate.matched = s.matched ∧ s.terminate.linked = s.linked ∧
    s.terminate.queue = s.queue ∧ (s.terminate.input = s.input ↔
      ¬ (s.inPlace = true ∧ s.input ≠ [] ∧ s.input.head? ≠ some 0)) ∧
    s.terminate.input.length = s.input.length := by
  obtain ⟨front, matched, input, inPlace, linked, queue⟩ := s
  cases inPlace with
  | false => simp [Fragments.terminate]
  | true =>
    cases input with
    | nil => simp [Fragments.terminate]
    | cons octet input => simp [Fragments.terminate, eq_comm]

/-- The blocks behind a body, where the null octet stays behind one of one octet. -/
theorem spoils_iff (hs : s.At scan blocks queue front) (hmatched : s.matched ≠ [])
    (hlen : (front.flatten ++ s.matched).length = headerSize + data.length)
    (htext : blocks.flatten = front.flatten ++ s.matched ++ rest) :
    (if data.length = 1 then s.terminate else s).input = s.input ↔
      ¬ Spoils scan data rest blocks := by
  by_cases hone : data.length = 1
  · rw [hone] at hlen
    have hrest : rest = s.input ++ (s.linked ++ s.queue).flatten := by
      rw [← hs.blocks] at htext
      simpa using htext.symm
    have hboundary := hs.input_eq_nil_iff hmatched
    rw [hlen] at hboundary
    rw [if_pos hone, (terminate_keeps s).2.2.2.2.1, Spoils,
      ← inPlace_eq_bodyInPlace hs hmatched hlen, ← hboundary, hrest]
    cases s.input with
    | nil => simp
    | cons octet input => simp [hone]
  · simp [Spoils, hone]

theorem remaining_inj {input input' : List UInt8} {linked : List (List UInt8)}
    (hlen : input'.length = input.length) :
    (Blocks.remaining input' linked).flatten = (Blocks.remaining input linked).flatten ↔
      input' = input := by
  rw [Blocks.flatten_remaining, Blocks.flatten_remaining]
  exact ⟨fun h => (List.append_inj h hlen).1, fun h => by rw [h]⟩

theorem remaining_append (input : List UInt8) (linked queue : List (List UInt8)) :
    Blocks.remaining input linked ++ queue = Blocks.remaining input (linked ++ queue) := by
  rw [Blocks.remaining, Blocks.remaining]
  split_ifs <;> rfl

/-- A frame with data whose length is not divided is passed on. Its data and what follows stay as
they are unless null octets replace others. -/
theorem parse_ok (ndebug : Bool) (hd : d.condition = .initial ∨ d.condition = .header)
    (hne : ∀ b ∈ blocks, b ≠ []) (hhead : headFragment ≠ [])
    (hblocks : headFragment ++ queue = blocks)
    (htext : blocks.flatten = h.bytes o ++ (data ++ rest)) (hdata : data ≠ [])
    (hlen : h.length.toNat = data.length) (hwhole : WholeLength blocks)
    (hloads : scan.Loads (headerSize + data.length) blocks) :
    ∃ message head queue', parse ndebug scan o d headFragment queue =
        .ok (.accepted h message ⟨.header, h, 0⟩ head queue') ∧ queue' <:+ queue ∧
      (message.flatten = data ↔ scan.Keeps (headerSize + data.length) blocks) ∧
      ((head ++ queue').flatten = blocks.flatten.drop (headerSize + data.length) ↔
        ¬ Spoils scan data rest blocks) ∧
      (¬ Spoils scan data rest blocks →
        head ++ queue' = Blocks.behind (headerSize + data.length) blocks) := by
  obtain ⟨buffer, linked, rfl⟩ := List.exists_cons_of_ne_nil hhead
  subst hblocks
  have hpos := List.length_pos_iff.mpr hdata
  have hfits : scanBegin scan.first buffer = true :=
    hloads [] buffer (linked ++ queue) rfl (by simp only [List.flatten_nil, List.length_nil]; omega)
  obtain ⟨s₀, hload⟩ : ∃ s₀, Fragments.load scan.first [] buffer linked queue = some s₀ :=
    ⟨_, Fragments.load_eq_some.mpr ⟨hfits, rfl⟩⟩
  obtain ⟨s₁, hlex₁, hs₁⟩ := lex_type o (reads_load hload) (by simp) hne hloads
    (by simp only [List.length_nil]; omega) hd htext
  have htext₁ : (buffer :: linked ++ queue).flatten =
      [] ++ [h.type] ++ (o.store 4 h.length.toNat ++ (data ++ rest)) := htext
  obtain ⟨s₂, hlex₂, hs₂⟩ := lex_length o hs₁ (by simp [headerSize]) hne hloads
    (by simp [headerSize]; omega)
    (d := { d with condition := .length, header := { d.header with type := h.type } }) rfl htext₁
    hwhole
  have htext₂ : (buffer :: linked ++ queue).flatten = h.bytes o ++ (data ++ rest) := htext
  obtain ⟨s₃, hlex₃, ⟨front, hat, hread⟩, hmatched⟩ := lex_body o
    (show s₂.Reads scan _ queue (h.bytes o) from hs₂)
    (length_bytes o h) hne hloads
    (d := { d with condition := .body, header := h, missing := h.length }) rfl
    (by rw [length_bytes]) hdata hlen htext₂
  have hlength : (front.flatten ++ s₃.matched).length = headerSize + data.length := by
    rw [← hread, List.length_append, length_bytes]
  have htext₃ : (buffer :: linked ++ queue).flatten = front.flatten ++ s₃.matched ++ rest := by
    rw [htext₂, ← hread, List.append_assoc]
  have hkeeps := hat.keeps_iff hwhole hmatched hlength.symm
  have hspoils := spoils_iff hat hmatched hlength htext₃
  have hbehind : Blocks.behind (headerSize + data.length) (buffer :: linked ++ queue) =
      Blocks.remaining s₃.input (s₃.linked ++ s₃.queue) := by
    rw [← hat.blocks, ← hlength]
    exact behind_current hmatched s₃.input
  -- the state behind the body, with the null octet where it stays
  set s₄ := if data.length = 1 then s₃.terminate else s₃ with hs₄
  obtain ⟨hfront₄, hmatched₄, hlinked₄, hqueue₄, hinput₄⟩ : s₄.front = s₃.front ∧
      s₄.matched = s₃.matched ∧ s₄.linked = s₃.linked ∧ s₄.queue = s₃.queue ∧
      s₄.input.length = s₃.input.length := by
    obtain ⟨hfront, hsame, hlinked, hqueue, -, hinput⟩ := terminate_keeps s₃
    rw [hs₄]
    split_ifs
    · exact ⟨hfront, hsame, hlinked, hqueue, hinput⟩
    · exact ⟨rfl, rfl, rfl, rfl, rfl⟩
  obtain ⟨message, hcb, hmessage⟩ := messageCb_ok ndebug (s := s₄) (d := ⟨.header, h, 0⟩)
    (by rw [hmatched₄]; exact hmatched)
    (by rw [hfront₄, hmatched₄, List.length_append, hat.left, scan.length_leaveAll,
      ← List.length_append, hlength, hlen]) (by rw [hlen]; exact hpos)
  rw [hfront₄, hmatched₄] at hmessage
  rw [hlinked₄, hqueue₄] at hcb
  refine ⟨message, Blocks.remaining s₄.input s₃.linked, s₃.queue, ?_, hat.queue, ?_, ?_, ?_⟩
  · rw [parse, hload, Option.bind_some, hlex₁]
    dsimp only
    rw [parseLength, hlex₂]
    dsimp only
    rw [parseBody, hlex₃]
    simp only [UInt32.sub_self, decide_true, aceAssert, Bool.or_true, if_true]
    exact hcb
  · rw [hmessage, ← hkeeps, ← hread]
    exact iff_of_eq (congrArg _ (List.drop_left' (length_bytes o h)).symm)
  · rw [remaining_append, ← Blocks.flatten_behind, hbehind, remaining_inj hinput₄]
    exact hspoils
  · intro hkept
    rw [remaining_append, hbehind, hspoils.mpr hkept]

theorem parseBody_of_accepted (hblocks : headFragment ++ queue = blocks)
    (htext : blocks.flatten = h.bytes o ++ rest) {header : Header}
    {message head queue' : List (List UInt8)} {d' : Driver}
    (hparse : parse ndebug scan o d headFragment queue =
      .ok (.accepted header message d' head queue')) :
    ∃ s, s.Reads scan blocks queue (h.bytes o) ∧ WholeLength blocks ∧
      parseBody ndebug scan o ⟨.body, h, h.length⟩ s =
        .ok (.accepted header message d' head queue') := by
  subst hblocks
  cases headFragment with
  | nil => cases hparse
  | cons buffer linked =>
    rw [parse] at hparse
    split at hparse
    · cases hparse
    · rename_i type d₁ s₁ hlex₁
      obtain ⟨s₀, hload, hlex₁⟩ := Option.bind_eq_some_iff.mp hlex₁
      obtain ⟨hs₁, rfl⟩ := reads_of_lex_type (reads_load hload) (by simp) hlex₁
      rw [parseLength] at hparse
      split at hparse
      · cases hparse
      · rename_i length d₂ s₂ hlex₂
        obtain ⟨⟨piece, hpiece, rfl, hs₂⟩, hwhole, rfl⟩ :=
          reads_of_lex_length hs₁ (by simp [headerSize]) hlex₂
        -- what has been read is the header
        have hbytes := htext.symm.trans hs₂.flatten
        obtain ⟨hbytes, -⟩ := List.append_inj hbytes
          (by simp [Header.bytes, hpiece])
        obtain ⟨htype, hstore⟩ := List.cons.inj hbytes
        have hlength : UInt32.ofNat (o.load piece) = h.length := by
          rw [show piece = o.store 4 h.length.toNat from hstore.symm, ByteOrder.load_store,
            Nat.mod_eq_of_lt (show h.length.toNat < 256 ^ 4 from h.length.toNat_lt),
            UInt32.ofNat_toNat]
        rw [hlength, ← htype] at hparse
        refine ⟨s₂, ?_, hwhole, hparse⟩
        rw [hbytes]
        exact hs₂
      · cases hparse
    · cases hparse
    · cases hparse

/-- A frame without data is not accepted, and one with data only where flex has room for it. -/
theorem loads_of_parseBody (hs : s.Reads scan blocks queue text)
    (hheader : text.length = headerSize) {header : Header}
    {message head queue' : List (List UInt8)} {d' : Driver}
    (hparse : parseBody false scan o ⟨.body, h, h.length⟩ s =
      .ok (.accepted header message d' head queue')) :
    h.length ≠ 0 ∧ scan.Loads (text.length + h.length.toNat) blocks := by
  rw [parseBody] at hparse
  split at hparse
  · cases hparse
  · rename_i missing d₁ s₁ hlex
    obtain ⟨hloads, rfl, rfl⟩ := loads_of_lex_body hs hheader hlex
    have hne : h.length ≠ 0 := by
      intro hzero
      refine absurd hparse ?_
      simp only [UInt32.sub_self, decide_true, aceAssert, Bool.or_true, if_true]
      exact messageCb_empty (d := ⟨.header, h, 0⟩) hzero _
    refine ⟨hne, ?_⟩
    obtain ⟨k, hk⟩ := Nat.exists_eq_succ_of_ne_zero
      (fun hzero => hne (UInt32.toNat_inj.mp hzero) : h.length.toNat ≠ 0)
    rw [toNat_sub_one hk] at hloads
    rw [hk]
    exact hloads
  · cases hparse

end Parse

def DataMessage.header (m : DataMessage) : Option Header :=
  m.mediaType.messageType.map (⟨·, UInt32.ofNat m.data.length⟩)

/-- The messages come out one after the other, each with its header and data, however many
of the blocks have been linked; what follows a message stays in `headFragment_` and the queue. -/
def Delivers (ndebug : Bool) (scan : Scanning) (o : ByteOrder) :
    List DataMessage → Driver → List (List UInt8) → Prop
  | [], _, blocks => blocks = []
  | m :: msgs, d, blocks =>
    ∀ headFragment queue, headFragment ≠ [] → headFragment ++ queue = blocks →
      ∃ header message d' head queue',
        parse ndebug scan o d headFragment queue = .ok (.accepted header message d' head queue') ∧
        m.header = some header ∧ message.flatten = m.data ∧ queue' <:+ queue ∧
        (head ++ queue').flatten =
          blocks.flatten.drop (headerSize + m.data.length) ∧
        Delivers ndebug scan o msgs d' (head ++ queue')

/-- Every message has data, no block ends inside of the word with its length, and flex has room for
the blocks. Where they are scanned in place, those that lie within the data begin with null octets,
and behind a body of one octet a block ends or the next message is of audio, whose type is 0. -/
def Parsable (scan : Scanning) : List DataMessage → List (List UInt8) → Prop
  | [], _ => True
  | m :: msgs, blocks =>
    m.data ≠ [] ∧ WholeLength blocks ∧ scan.Loads (headerSize + m.data.length) blocks ∧
      scan.Keeps (headerSize + m.data.length) blocks ∧
      (m.data.length = 1 → scan.bodyInPlace blocks = true →
        Blocks.Boundary (headerSize + 1) blocks ∨ msgs.head?.map (·.mediaType) = some .audio) ∧
      Parsable scan msgs (Blocks.behind (headerSize + m.data.length) blocks)

section Run

variable {scan : Scanning} {o : ByteOrder} {msgs : List DataMessage} {m : DataMessage}
  {blocks : List (List UInt8)} {d : Driver} {rest : List UInt8} {h : Header}

theorem handleDataMessage_ok {out : List (List UInt8)}
    (h : ∀ ndebug, handleDataMessage ndebug o m = .ok (some out)) :
    ∃ header, m.header = some header ∧ header.length = UInt32.ofNat m.data.length ∧
      out.flatten = header.bytes o ++ m.data := by
  have hdebug := h false
  rw [handleDataMessage] at hdebug
  by_cases hcont : m.cont = []
  · cases htype : m.mediaType.messageType with
    | none => simp [aceAssert, hcont, htype, bind, Except.bind, pure, Except.pure] at hdebug
    | some type =>
      refine ⟨⟨type, UInt32.ofNat m.data.length⟩, by rw [DataMessage.header, htype]; rfl, rfl, ?_⟩
      simp [aceAssert, hcont, htype, bind, Except.bind, pure, Except.pure] at hdebug
      simp [← hdebug]
  · simp [aceAssert, hcont, bind, Except.bind] at hdebug

theorem ne_nil_of_flatten (htext : blocks.flatten = h.bytes o ++ rest) : blocks ≠ [] := by
  rintro rfl
  have hlen := congrArg List.length htext
  rw [List.length_append, length_bytes, List.flatten_nil, List.length_nil] at hlen
  simp only [headerSize] at hlen
  omega

/-- A message that comes out of a build with assertions has data, the whole of its length in one
block, and only blocks that flex has room for. -/
theorem loads_of_delivers (htext : blocks.flatten = h.bytes o ++ (m.data ++ rest))
    (hlen : h.length.toNat = m.data.length)
    (hdelivers : Delivers false scan o (m :: msgs) d blocks) :
    m.data ≠ [] ∧ WholeLength blocks ∧ scan.Loads (headerSize + m.data.length) blocks := by
  obtain ⟨header, message, d', head, queue', hparse, -⟩ :=
    hdelivers blocks [] (ne_nil_of_flatten htext) (List.append_nil blocks)
  obtain ⟨s, hs, hwhole, hbody⟩ := parseBody_of_accepted (List.append_nil blocks) htext hparse
  obtain ⟨hne, hloads⟩ := loads_of_parseBody hs (length_bytes o h) hbody
  refine ⟨fun hnil => hne (UInt32.toNat_inj.mp ?_), hwhole, ?_⟩
  · rw [hlen, hnil]
    rfl
  · rw [← hlen, ← length_bytes o h]
    exact hloads

/-- One message: the next ones are read from where it ends. -/
theorem delivers_cons_iff (hd : d.condition = .initial ∨ d.condition = .header)
    (hne : ∀ b ∈ blocks, b ≠ []) (htext : blocks.flatten = h.bytes o ++ (m.data ++ rest))
    (hheader : m.header = some h) (hlen : h.length.toNat = m.data.length) :
    (∀ ndebug, Delivers ndebug scan o (m :: msgs) d blocks) ↔ m.data ≠ [] ∧ WholeLength blocks ∧
      scan.Loads (headerSize + m.data.length) blocks ∧
      scan.Keeps (headerSize + m.data.length) blocks ∧ ¬ Spoils scan m.data rest blocks ∧
      ∀ ndebug, Delivers ndebug scan o msgs ⟨.header, h, 0⟩
        (Blocks.behind (headerSize + m.data.length) blocks) := by
  have hblocks := ne_nil_of_flatten htext
  constructor
  · intro hall
    obtain ⟨hdata, hwhole, hloads⟩ := loads_of_delivers htext hlen (hall false)
    -- the data have been kept, and what stays behind the message is as it was
    have hkept : ∀ ndebug, scan.Keeps (headerSize + m.data.length) blocks ∧
        ¬ Spoils scan m.data rest blocks ∧ Delivers ndebug scan o msgs ⟨.header, h, 0⟩
          (Blocks.behind (headerSize + m.data.length) blocks) := by
      intro ndebug
      obtain ⟨header, message, d', head, queue', hparse, -, hmessage, -, hdrop, hrest⟩ :=
        hall ndebug blocks [] hblocks (List.append_nil blocks)
      obtain ⟨message', head', queue'', hparse', -, hkeeps, hspoils, hbehind⟩ :=
        parse_ok ndebug hd hne hblocks (List.append_nil blocks) htext hdata hlen hwhole hloads
      rw [hparse] at hparse'
      cases hparse'
      have hkept := hspoils.mp hdrop
      refine ⟨hkeeps.mp hmessage, hkept, ?_⟩
      rw [← hbehind hkept]
      exact hrest
    exact ⟨hdata, hwhole, hloads, (hkept false).1, (hkept false).2.1,
      fun ndebug => (hkept ndebug).2.2⟩
  · rintro ⟨hdata, hwhole, hloads, hkeeps, hspoils, hrest⟩ ndebug headFragment queue hhead hsplit
    obtain ⟨message, head, queue', hparse, hqueue, hmessage, hdrop, hbehind⟩ :=
      parse_ok ndebug hd hne hhead hsplit htext hdata hlen hwhole hloads
    refine ⟨h, message, _, head, queue', hparse, hheader, hmessage.mpr hkeeps, hqueue,
      hdrop.mpr hspoils, ?_⟩
    rw [hbehind hspoils]
    exact hrest ndebug

/-- Behind a body of one octet only the type of a message of audio survives the null octet. -/
theorem not_spoils_iff {outs : List (List (List UInt8))}
    (houts : List.Forall₂
      (fun m out => ∀ ndebug, handleDataMessage ndebug o m = .ok (some out)) msgs outs)
    (hdata : m.data.length = 1 → blocks.flatten.length = headerSize + 1 + rest.length)
    (hrest : rest = outs.flatten.flatten) :
    ¬ Spoils scan m.data rest blocks ↔ (m.data.length = 1 → scan.bodyInPlace blocks = true →
      Blocks.Boundary (headerSize + 1) blocks ∨
        msgs.head?.map (·.mediaType) = some .audio) := by
  have hnext : m.data.length = 1 → ¬ Blocks.Boundary (headerSize + 1) blocks →
      (rest.head? = some 0 ↔ msgs.head?.map (·.mediaType) = some .audio) := by
    intro hone hboundary
    cases houts with
    | nil =>
      subst hrest
      refine absurd ⟨blocks, List.prefix_rfl, ?_⟩ hboundary
      rw [hdata hone, List.flatten_nil, List.flatten_nil, List.length_nil, Nat.add_zero]
    | @cons m' out msgs outs hout _ =>
      obtain ⟨h', hheader', -, hout⟩ := handleDataMessage_ok hout
      rw [DataMessage.header, Option.map_eq_some_iff] at hheader'
      obtain ⟨type, htype, rfl⟩ := hheader'
      rw [hrest, List.flatten_cons, List.flatten_append, hout, Header.bytes]
      simp only [List.cons_append, List.head?_cons, Option.map_some, Option.some.injEq]
      cases hmedia : m'.mediaType with
      | audio =>
        rw [hmedia] at htype
        cases htype
        simp
      | video =>
        rw [hmedia] at htype
        cases htype
        simp
      | invalid =>
        rw [hmedia] at htype
        cases htype
  rw [Spoils]
  constructor
  · intro hspoils hone hplace
    by_contra hneither
    obtain ⟨hboundary, haudio⟩ := not_or.mp hneither
    exact hspoils ⟨hone, hplace, hboundary, fun hzero => haudio ((hnext hone hboundary).mp hzero)⟩
  · rintro hkept ⟨hone, hplace, hboundary, hzero⟩
    rcases hkept hone hplace with hends | haudio
    · exact hboundary hends
    · exact hzero ((hnext hone hboundary).mpr haudio)

/-- The messages come out as they have been sent exactly when all of them can be parsed. -/
theorem delivers_iff_parsable {outs : List (List (List UInt8))}
    (hd : d.condition = .initial ∨ d.condition = .header)
    (hmsgs : ∀ m ∈ msgs, m.data.length < 2 ^ 32)
    (houts : List.Forall₂
      (fun m out => ∀ ndebug, handleDataMessage ndebug o m = .ok (some out)) msgs outs)
    (hne : ∀ b ∈ blocks, b ≠ []) (hblocks : blocks.flatten = outs.flatten.flatten) :
    (∀ ndebug, Delivers ndebug scan o msgs d blocks) ↔ Parsable scan msgs blocks := by
  induction houts generalizing d blocks with
  | nil =>
    refine iff_of_true (fun _ => ?_) trivial
    rw [Delivers]
    apply List.eq_nil_iff_forall_not_mem.mpr
    exact fun b hb => hne b hb (List.flatten_eq_nil_iff.mp hblocks b hb)
  | @cons m out msgs outs hout houts ih =>
    obtain ⟨hm, hmsgs⟩ := List.forall_mem_cons.mp hmsgs
    obtain ⟨h, hheader, hlength, hout⟩ := handleDataMessage_ok hout
    have htext : blocks.flatten = h.bytes o ++ (m.data ++ outs.flatten.flatten) := by
      rw [hblocks, List.flatten_cons, List.flatten_append, hout, List.append_assoc]
    have hlen : h.length.toNat = m.data.length := by
      rw [hlength, UInt32.toNat_ofNat', Nat.mod_eq_of_lt hm]
    have hbehind : (Blocks.behind (headerSize + m.data.length) blocks).flatten =
        outs.flatten.flatten := by
      rw [Blocks.flatten_behind, htext, ← List.append_assoc]
      exact List.drop_left' (by rw [List.length_append, length_bytes])
    have ih := ih (d := ⟨.header, h, 0⟩) (.inr rfl) hmsgs (Blocks.nonempty_behind hne _) hbehind
    have hspoils := @not_spoils_iff scan o msgs m blocks outs.flatten.flatten outs houts
      (fun hone => by rw [htext, List.length_append, List.length_append, length_bytes, hone,
        Nat.add_assoc]) rfl
    rw [Parsable, ← ih, ← hspoils]
    exact delivers_cons_iff hd hne htext hheader hlen

end Run

def newDriver : Driver := ⟨.initial, ⟨0, 0⟩, 0⟩

theorem Scanning.loads_of_lt (scan : Scanning) (n : ℕ) {blocks : List (List UInt8)}
    (h : ∀ b ∈ blocks, b.length + 2 < 2 ^ 31) : scan.Loads n blocks := by
  rintro front b back rfl -
  have hb := h b (by simp)
  rw [scanBegin, decide_eq_true_eq]
  split <;> omega

/-- Two messages in four blocks that are scanned in place; the first block ends behind a body, the
second one behind a type. -/
theorem delivers_iff_parsable_two : Delivers false ⟨true, true⟩ .littleEndian
    [⟨.audio, [7], []⟩, ⟨.video, [8, 9], []⟩] newDriver
    [[0, 1, 0, 0, 0, 7], [1], [2, 0, 0, 0, 8], [9]] := by
  have houts : List.Forall₂
      (fun m out => ∀ ndebug, handleDataMessage ndebug .littleEndian m = .ok (some out))
      [⟨.audio, [7], []⟩, ⟨.video, [8, 9], []⟩]
      [[[0, 1, 0, 0, 0], [7]], [[1, 2, 0, 0, 0], [8, 9]]] :=
    .cons (fun ndebug => by cases ndebug <;> rfl)
      (.cons (fun ndebug => by cases ndebug <;> rfl) .nil)
  have hwhole : WholeLength [[0, 1, 0, 0, 0, 7], [1], [2, 0, 0, 0, 8], [9]] := by
    intro n hlow hhigh
    interval_cases n <;> simp [Blocks.boundary_cons]
  have hwhole' : WholeLength [[1], [2, 0, 0, 0, 8], [9]] := by
    intro n hlow hhigh
    interval_cases n <;> simp [Blocks.boundary_cons]
  -- the two octets of the block that lies across the header and the data belong to the length
  have hkeeps : (⟨true, true⟩ : Scanning).Keeps 6
      [[0, 1, 0, 0, 0, 7], [1], [2, 0, 0, 0, 8], [9]] := by
    rintro - front b back hfront hheader hlt
    rcases front with _ | ⟨first, front⟩
    · cases hheader
    · obtain ⟨rfl, -⟩ := List.cons.inj hfront
      simp at hlt
      omega
  have hkeeps' : (⟨true, true⟩ : Scanning).Keeps 7 [[1], [2, 0, 0, 0, 8], [9]] := by
    rintro - front b back hfront hheader hlt
    rcases front with _ | ⟨first, _ | ⟨second, front⟩⟩
    · cases hheader
    · obtain ⟨rfl, -⟩ := List.cons.inj hfront
      simp [headerSize] at hheader
    · obtain ⟨rfl, htail⟩ := List.cons.inj hfront
      obtain ⟨rfl, htail⟩ := List.cons.inj htail
      obtain ⟨rfl, rfl, -⟩ : front = [] ∧ [9] = b ∧ [] = back := by
        rcases front with _ | ⟨third, front⟩
        · simpa using htail
        · simp at htail
      simp at hlt
  have hblocks : [[0, 1, 0, 0, 0, 7], [1], [2, 0, 0, 0, 8], [9]].flatten =
      [[[0, 1, 0, 0, 0], [7]], [[1, 2, 0, 0, 0], [8, (9 : UInt8)]]].flatten.flatten := rfl
  refine (delivers_iff_parsable (d := newDriver) (.inl rfl) (by simp) houts (by simp) hblocks).mpr
    ?_ false
  refine ⟨by decide, hwhole, Scanning.loads_of_lt _ _ (by decide), hkeeps, fun _ _ => .inl ?_, ?_⟩
  · simp [Blocks.boundary_cons, headerSize]
  · exact ⟨by decide, hwhole', Scanning.loads_of_lt _ _ (by decide), hkeeps', by simp, trivial⟩

/-- The first block ends inside of the length. -/
theorem not_delivers : ¬ ∀ (scan : Scanning) (o : ByteOrder) (msgs : List DataMessage)
    (outs : List (List (List UInt8))) (blocks : List (List UInt8)),
    (∀ m ∈ msgs, m.data.length < 2 ^ 32) →
    List.Forall₂ (fun m out => ∀ ndebug, handleDataMessage ndebug o m = .ok (some out)) msgs outs →
    (∀ b ∈ blocks, b ≠ []) → blocks.flatten = outs.flatten.flatten →
      ∀ ndebug, Delivers ndebug scan o msgs newDriver blocks := by
  intro h
  have hdelivers := h ⟨false, false⟩ .littleEndian [⟨.audio, [7], []⟩] [[[0, 1, 0, 0, 0], [7]]]
    [[0, 1, 0], [0, 0, 7]] (by decide) (.cons (fun ndebug => by cases ndebug <;> rfl) .nil)
    (by decide) rfl false
  have hboundary : Blocks.Boundary 3 ([[0, 1, 0], [0, 0, 7]] : List (List UInt8)) := by
    simp [Blocks.boundary_cons]
  have htext : ([[0, 1, 0], [0, 0, 7]] : List (List UInt8)).flatten =
      Header.bytes .littleEndian ⟨0, 1⟩ ++ ([7] ++ []) := rfl
  obtain ⟨-, hwhole, -⟩ := loads_of_delivers htext rfl hdelivers
  exact hwhole 3 (by decide) (by decide) hboundary

end ACENetwork.AVStream
