import ACENetwork.BitTorrent.Bencoding.Parser
import ACENetwork.BitTorrent.Bencoding.Values

/-!
# Parsing a syntax tree

The elements of the driver represent a value when its containers point to elements
that were allocated later. Parsing a tree hangs one new element, which represents the
value of the tree, into the container on top of the stack and leaves the scanner and the
grammar behind the tree.
-/
namespace ACENetwork.BitTorrent.Bencoding
open Library

mutual

def Represents (elements : ℕ → Option Element) : ℕ → Value → Prop
  | p, .integer n => elements p = some (.integer n)
  | p, .string octets => elements p = some (.string octets)
  | p, .list vs => ∃ ps, elements p = some (.list ps) ∧ RepresentsItems elements p ps vs
  | p, .dictionary vs =>
    ∃ es, elements p = some (.dictionary es) ∧ RepresentsEntries elements p es vs

def RepresentsItems (elements : ℕ → Option Element) (p : ℕ) : List ℕ → List Value → Prop
  | [], [] => True
  | q :: ps, v :: vs => p < q ∧ Represents elements q v ∧ RepresentsItems elements p ps vs
  | _, _ => False

def RepresentsEntries (elements : ℕ → Option Element) (p : ℕ) :
    List (Option (List UInt8) × ℕ) → List (List UInt8 × Value) → Prop
  | [], [] => True
  | (k, q) :: es, (key, v) :: vs =>
    k = some key ∧ p < q ∧ Represents elements q v ∧ RepresentsEntries elements p es vs
  | _, _ => False

end

/-- The second elements have those of the first from a pointer on. -/
def AgreeFrom (p : ℕ) (elements elements' : ℕ → Option Element) : Prop :=
  ∀ q e, p ≤ q → elements q = some e → elements' q = some e

theorem AgreeFrom.mono {p q : ℕ} {elements elements' : ℕ → Option Element} (hpq : p ≤ q)
    (h : AgreeFrom p elements elements') : AgreeFrom q elements elements' :=
  fun r e hr => h r e (hpq.trans hr)

mutual

theorem Represents.congr {elements elements' : ℕ → Option Element} :
    ∀ (p : ℕ) (v : Value), AgreeFrom p elements elements' → Represents elements p v →
      Represents elements' p v
  | p, .integer _, h, hv => h p _ le_rfl hv
  | p, .string _, h, hv => h p _ le_rfl hv
  | p, .list vs, h, ⟨ps, hp, hps⟩ =>
    ⟨ps, h p _ le_rfl hp, RepresentsItems.congr p ps vs (h.mono p.le_succ) hps⟩
  | p, .dictionary vs, h, ⟨es, hp, hes⟩ =>
    ⟨es, h p _ le_rfl hp, RepresentsEntries.congr p es vs (h.mono p.le_succ) hes⟩

theorem RepresentsItems.congr {elements elements' : ℕ → Option Element} :
    ∀ (p : ℕ) (ps : List ℕ) (vs : List Value), AgreeFrom (p + 1) elements elements' →
      RepresentsItems elements p ps vs → RepresentsItems elements' p ps vs
  | _, [], [], _, _ => trivial
  | p, q :: ps, v :: vs, h, ⟨hpq, hv, hvs⟩ =>
    ⟨hpq, Represents.congr q v (h.mono hpq) hv, RepresentsItems.congr p ps vs h hvs⟩

theorem RepresentsEntries.congr {elements elements' : ℕ → Option Element} :
    ∀ (p : ℕ) (es : List (Option (List UInt8) × ℕ)) (vs : List (List UInt8 × Value)),
      AgreeFrom (p + 1) elements elements' → RepresentsEntries elements p es vs →
      RepresentsEntries elements' p es vs
  | _, [], [], _, _ => trivial
  | p, (_, q) :: es, (_, v) :: vs, h, ⟨hk, hpq, hv, hvs⟩ =>
    ⟨hk, hpq, Represents.congr q v (h.mono hpq) hv, RepresentsEntries.congr p es vs h hvs⟩

end

mutual

theorem Represents.unique {elements : ℕ → Option Element} :
    ∀ (p : ℕ) (v v' : Value), Represents elements p v → Represents elements p v' → v = v'
  | p, .integer _, v', h, h' => by
    cases v' <;> simp_all [Represents]
  | p, .string _, v', h, h' => by
    cases v' <;> simp_all [Represents]
  | p, .list vs, v', ⟨ps, hp, hps⟩, h' => by
    cases v' with
    | list vs' =>
      obtain ⟨ps', hp', hps'⟩ := h'
      obtain rfl : ps = ps' := by rw [hp] at hp'; simpa using hp'
      rw [RepresentsItems.unique p ps vs vs' hps hps']
    | integer n => rw [Represents, hp] at h'; cases h'
    | string s => rw [Represents, hp] at h'; cases h'
    | dictionary es =>
      obtain ⟨es', hp', -⟩ := h'
      rw [hp] at hp'
      cases hp'
  | p, .dictionary vs, v', ⟨es, hp, hes⟩, h' => by
    cases v' with
    | dictionary vs' =>
      obtain ⟨es', hp', hes'⟩ := h'
      obtain rfl : es = es' := by rw [hp] at hp'; simpa using hp'
      rw [RepresentsEntries.unique p es vs vs' hes hes']
    | integer n => rw [Represents, hp] at h'; cases h'
    | string s => rw [Represents, hp] at h'; cases h'
    | list ps =>
      obtain ⟨ps', hp', -⟩ := h'
      rw [hp] at hp'
      cases hp'

theorem RepresentsItems.unique {elements : ℕ → Option Element} :
    ∀ (p : ℕ) (ps : List ℕ) (vs vs' : List Value), RepresentsItems elements p ps vs →
      RepresentsItems elements p ps vs' → vs = vs'
  | _, [], [], [], _, _ => rfl
  | p, q :: ps, v :: vs, v' :: vs', ⟨_, hv, hvs⟩, ⟨_, hv', hvs'⟩ => by
    rw [Represents.unique q v v' hv hv', RepresentsItems.unique p ps vs vs' hvs hvs']

theorem RepresentsEntries.unique {elements : ℕ → Option Element} :
    ∀ (p : ℕ) (es : List (Option (List UInt8) × ℕ)) (vs vs' : List (List UInt8 × Value)),
      RepresentsEntries elements p es vs → RepresentsEntries elements p es vs' → vs = vs'
  | _, [], [], [], _, _ => rfl
  | p, (k, q) :: es, (key, v) :: vs, (key', v') :: vs', ⟨hk, _, hv, hvs⟩, ⟨hk', _, hv', hvs'⟩ => by
    obtain rfl : key = key' := by rw [hk] at hk'; simpa using hk'
    rw [Represents.unique q v v' hv hv', RepresentsEntries.unique p es vs vs' hvs hvs']

end

theorem RepresentsItems.append {elements : ℕ → Option Element} {p q : ℕ} {v : Value}
    (hpq : p < q) (hv : Represents elements q v) : ∀ (ps : List ℕ) (vs : List Value),
      RepresentsItems elements p ps vs → RepresentsItems elements p (ps ++ [q]) (vs ++ [v])
  | [], [], _ => ⟨hpq, hv, trivial⟩
  | _ :: ps, _ :: vs, ⟨h1, h2, h3⟩ => ⟨h1, h2, RepresentsItems.append hpq hv ps vs h3⟩

theorem RepresentsEntries.append {elements : ℕ → Option Element} {p q : ℕ} {key : List UInt8}
    {v : Value} (hpq : p < q) (hv : Represents elements q v) :
    ∀ (es : List (Option (List UInt8) × ℕ)) (vs : List (List UInt8 × Value)),
      RepresentsEntries elements p es vs →
      RepresentsEntries elements p (es ++ [(some key, q)]) (vs ++ [(key, v)])
  | [], [], _ => ⟨rfl, hpq, hv, trivial⟩
  | (_, _) :: es, (_, _) :: vs, ⟨h0, h1, h2, h3⟩ =>
    ⟨h0, h1, h2, RepresentsEntries.append hpq hv es vs h3⟩

def Driver.Allocated (d : Driver) : Prop := ∀ q, d.size ≤ q → d.elements q = none

/-- The driver has the container open at a pointer, on top of the stack. -/
structure Driver.Filling (d : Driver) (top : ℕ) (up : List ℕ) : Prop where
  current : d.current = top :: up
  top_lt : top < d.size
  isFirst : d.isFirst = false
  bencoding : d.bencoding.isSome = true
  allocated : d.Allocated

/-- The driver takes an element: the first one, an item, or the value of a key. -/
inductive Driver.Ready (d : Driver) : Prop where
  | first (current : d.current = []) (isFirst : d.isFirst = true) (bencoding : d.bencoding = none)
    (key : d.key = none) (allocated : d.Allocated)
  | item {top : ℕ} {up : List ℕ} {ps : List ℕ} (filling : d.Filling top up)
    (list : d.elements top = some (.list ps)) (key : d.key = none)
  | value {top : ℕ} {up : List ℕ} {es : List (Option (List UInt8) × ℕ)} {key : List UInt8}
    (filling : d.Filling top up) (dictionary : d.elements top = some (.dictionary es))
    (key : d.key = some key)

def Element.append (key : Option (List UInt8)) (p : ℕ) : Element → Element
  | .list ps => .list (ps ++ [p])
  | .dictionary es => .dictionary (es ++ [(key, p)])
  | e => e

/-- The driver has hung a new element into the container on top of the stack. -/
structure Hung (d d' : Driver) : Prop where
  kept : ∀ q < d.size, q ∉ d.current.head? → d'.elements q = d.elements q
  top : ∀ q ∈ d.current.head?, d'.elements q = (d.elements q).map (·.append d.key d.size)
  size : d.size < d'.size
  isFirst : d'.isFirst = false
  bencoding : d'.bencoding = if d.current = [] then some d.size else d.bencoding
  key : d'.key = none
  allocated : d'.Allocated

theorem Driver.Ready.allocated {d : Driver} (h : d.Ready) : d.Allocated := by
  cases h with
  | first _ _ _ _ hallocated => exact hallocated
  | item hfilling => exact hfilling.allocated
  | value hfilling => exact hfilling.allocated

theorem Driver.Ready.top_lt {d : Driver} (h : d.Ready) : ∀ q ∈ d.current.head?, q < d.size := by
  intro q hq
  cases h with
  | first hnil => rw [hnil] at hq; cases hq
  | item hfilling =>
    rw [hfilling.current] at hq
    exact Option.some.inj hq ▸ hfilling.top_lt
  | value hfilling =>
    rw [hfilling.current] at hq
    exact Option.some.inj hq ▸ hfilling.top_lt

theorem Hung.bencoding_isSome {d d' : Driver} (h : Hung d d') (hd : d.Ready) :
    d'.bencoding.isSome = true := by
  rw [h.bencoding]
  cases hd with
  | first hcurrent => simp [hcurrent]
  | item hfilling => simp [hfilling.current, hfilling.bencoding]
  | value hfilling => simp [hfilling.current, hfilling.bencoding]

namespace Driver

variable (d : Driver) (p : ℕ) (e : Element)

@[simp] theorem enter_elements : (d.enter p e).elements = d.elements := by
  unfold enter; split <;> rfl

@[simp] theorem enter_size : (d.enter p e).size = d.size := by
  unfold enter; split <;> rfl

@[simp] theorem enter_isFirst : (d.enter p e).isFirst = d.isFirst := by
  unfold enter; split <;> rfl

@[simp] theorem enter_bencoding : (d.enter p e).bencoding = d.bencoding := by
  unfold enter; split <;> rfl

@[simp] theorem enter_key : (d.enter p e).key = d.key := by
  unfold enter; split <;> rfl

@[simp] theorem enter_current :
    (d.enter p e).current = if e.isContainer then p :: d.current else d.current := by
  unfold enter; split <;> rfl

end Driver

/-- A store into the container on top of the stack hangs the new element. -/
theorem hung_store {d : Driver} {top : ℕ} {up : List ℕ} (hd : d.Filling top up) {c : Element}
    (htop : d.elements top = some c) (e : Element) :
    Hung d { (d.new e).store top (c.append d.key d.size) with key := none } := by
  have hhead : d.current.head? = some top := by rw [hd.current]; rfl
  constructor
  · intro q hq hne
    rw [hhead, Option.mem_some] at hne
    simp only [Driver.store, Driver.new, Function.update_apply]
    rw [if_neg (Ne.symm hne), if_neg hq.ne]
  · intro q hq
    rw [hhead, Option.mem_some] at hq
    subst hq
    simp [Driver.store, htop]
  · exact Nat.lt_succ_self _
  · exact hd.isFirst
  · rw [if_neg (by rw [hd.current]; simp)]
    rfl
  · rfl
  · intro q hq
    have hq' : d.size + 1 ≤ q := hq
    have hlt := hd.top_lt
    simp only [Driver.store, Driver.new, Function.update_apply]
    rw [if_neg (by omega), if_neg (by omega), hd.allocated q (by omega)]

theorem push_ok {ndebug : Bool} {d : Driver} (hd : d.Ready) (e : Element) :
    ∃ d', d.push ndebug e = .ok (d'.enter d.size e) ∧ Hung d d' ∧
      d'.elements d.size = some e ∧ d'.current = d.current := by
  cases hd with
  | first hcurrent hfirst hbencoding hkey hallocated =>
    refine ⟨{ d.new e with isFirst := false, bencoding := some d.size }, ?_, ?_, ?_, rfl⟩
    · simp [Driver.push, Driver.setFirst, Driver.new, hfirst, hbencoding, hcurrent]
      rfl
    · constructor
      · intro q hq _
        simp [Driver.new, hq.ne]
      · simp [hcurrent]
      · exact Nat.lt_succ_self _
      · rfl
      · rw [if_pos hcurrent]
      · exact hkey
      · intro q hq
        have hq' : d.size + 1 ≤ q := hq
        simp only [Driver.new, Function.update_apply]
        rw [if_neg (by omega), hallocated q (by omega)]
    · simp [Driver.new]
  | @item top up ps hfilling hlist hkey =>
    have hne : top ≠ d.size := hfilling.top_lt.ne
    have hhung := hung_store hfilling hlist e
    refine ⟨_, ?_, hhung, ?_, rfl⟩
    · simp [Driver.push, Driver.setFirst, Driver.new, Driver.hang, Driver.store, Element.append,
        hfilling.isFirst, hfilling.current, hlist, hne, hkey]
      rfl
    · simp [Driver.new, Driver.store, hne.symm]
  | @value top up es key hfilling hdictionary hkey =>
    have hne : top ≠ d.size := hfilling.top_lt.ne
    have hhung := hung_store hfilling hdictionary e
    refine ⟨_, ?_, hhung, ?_, rfl⟩
    · simp [Driver.push, Driver.setFirst, Driver.new, Driver.hang, Driver.store, Element.append,
        hfilling.isFirst, hfilling.current, hdictionary, hne, hkey]
    · simp [Driver.new, Driver.store, hne.symm]

structure Completed (d d' : Driver) (v : Value) : Prop extends Hung d d' where
  current : d'.current = d.current
  represents : Represents d'.elements d.size v

/-- The driver has filled the container on top of the stack and left it. -/
structure Filled (d d' : Driver) (top : ℕ) (up : List ℕ) (v : Value) : Prop where
  kept : ∀ q < d.size, q ≠ top → d'.elements q = d.elements q
  size : d.size ≤ d'.size
  isFirst : d'.isFirst = false
  bencoding : d'.bencoding = d.bencoding
  key : d'.key = none
  allocated : d'.Allocated
  current : d'.current = up
  represents : Represents d'.elements top v

def parseElement (ndebug : Bool) (s : Scanner) (contexts : List Context) (d : Driver) :
    ParseResult :=
  match resumeContexts contexts with
  | [] => .ok (some (d, s))
  | contexts => parseFrom ndebug ⟨s, contexts, d⟩

theorem record_ok {ndebug : Bool} {d : Driver} (h : d.bencoding.isSome = true) :
    d.record ndebug = .ok () := by
  obtain ⟨p, hp⟩ := Option.isSome_iff_exists.mp h
  simp [Driver.record, hp]

/-- A token that completes an element hands the driver to what follows. -/
theorem parseFrom_element {ndebug : Bool} {p : ParserState} {t : Token} {s : Scanner}
    {contexts : List Context} {d : Driver} (hlex : yylex ndebug p.scanner = .ok (t, s))
    (hreduce : reduce ndebug t p.contexts p.driver = reduceElement ndebug contexts d)
    (hd : d.bencoding.isSome = true) :
    parseFrom ndebug p = parseElement ndebug s contexts d := by
  unfold reduceElement at hreduce
  unfold parseElement
  cases hcontexts : resumeContexts contexts with
  | nil =>
    rw [hcontexts] at hreduce
    refine parseFrom_accept hlex (hreduce.trans ?_)
    simp only [record_ok hd]
    rfl
  | cons c up =>
    rw [hcontexts] at hreduce
    exact parseFrom_next hlex hreduce

theorem resumeContexts_idem (contexts : List Context) :
    resumeContexts (resumeContexts contexts) = resumeContexts contexts := by
  rcases contexts with _ | ⟨_ | _ | _, up⟩ <;> rfl

theorem parseElement_resume {ndebug : Bool} {s : Scanner} {contexts : List Context} {d : Driver} :
    parseElement ndebug s (resumeContexts contexts) d = parseElement ndebug s contexts d := by
  rw [parseElement, parseElement, resumeContexts_idem]

def TakesElement (contexts : List Context) : Prop := contexts.head? ≠ some .dictionaryItems

theorem reduce_item {ndebug : Bool} {contexts : List Context} (h : TakesElement contexts)
    {t : Token} (ht : t ≠ .endOfList) (d : Driver) :
    reduce ndebug t contexts d = reduceItem ndebug t contexts d := by
  rcases contexts with _ | ⟨_ | _ | _, up⟩
  · rfl
  · cases t <;> first | rfl | exact absurd rfl ht
  · exact absurd rfl h
  · rfl

theorem completed_scalar {d d' : Driver} {e : Element} {v : Value} (hhung : Hung d d')
    (hcurrent : d'.current = d.current) (he : e.isContainer = false)
    (hv : Represents d'.elements d.size v) : Completed d (d'.enter d.size e) v where
  kept := by simpa using hhung.kept
  top := by simpa using hhung.top
  size := by simpa using hhung.size
  isFirst := by simpa using hhung.isFirst
  bencoding := by simpa using hhung.bencoding
  key := by simpa using hhung.key
  allocated := by simpa [Driver.Allocated] using hhung.allocated
  current := by simp [he, hcurrent]
  represents := by simpa using hv

theorem completed_container {d d' d'' : Driver} {e : Element} {v : Value} (hd : d.Ready)
    (hhung : Hung d d') (hcurrent : d'.current = d.current)
    (hfilled : Filled (d'.enter d.size e) d'' d.size d'.current v) : Completed d d'' v where
  kept q hq hne := by
    have hkept := hfilled.kept q (by simpa using hq.trans hhung.size) hq.ne
    rw [hkept, Driver.enter_elements]
    exact hhung.kept q hq hne
  top q hq := by
    have hlt := hd.top_lt q hq
    have hkept := hfilled.kept q (by simpa using hlt.trans hhung.size) hlt.ne
    rw [hkept, Driver.enter_elements]
    exact hhung.top q hq
  size := by simpa using hhung.size.trans_le (by simpa using hfilled.size)
  isFirst := hfilled.isFirst
  bencoding := by rw [hfilled.bencoding, Driver.enter_bencoding, hhung.bencoding]
  key := hfilled.key
  allocated := hfilled.allocated
  current := hfilled.current.trans hcurrent
  represents := hfilled.represents

theorem Filled.bencoding_isSome {d d' : Driver} {top : ℕ} {up : List ℕ} {v : Value}
    (h : Filled d d' top up v) (hd : d.Filling top up) : d'.bencoding.isSome = true := by
  rw [h.bencoding, hd.bencoding]

theorem filling_enter {d d' : Driver} {e : Element} (hd : d.Ready) (hhung : Hung d d')
    (he : e.isContainer = true) : (d'.enter d.size e).Filling d.size d'.current where
  current := by simp [he]
  top_lt := by simpa using hhung.size
  isFirst := by simpa using hhung.isFirst
  bencoding := by simpa using hhung.bencoding_isSome hd
  allocated := by simpa [Driver.Allocated] using hhung.allocated

section Completed

variable {d d' : Driver} {top : ℕ} {up : List ℕ} {v : Value}

theorem Completed.filling (h : Completed d d' v) (hd : d.Filling top up) : d'.Filling top up where
  current := h.current.trans hd.current
  top_lt := hd.top_lt.trans h.size
  isFirst := h.isFirst
  bencoding := by rw [h.bencoding, if_neg (by rw [hd.current]; simp), hd.bencoding]
  allocated := h.allocated

theorem Completed.agree (h : Completed d d' v) (hd : d.Filling top up) :
    AgreeFrom (top + 1) d.elements d'.elements := by
  intro q e hq he
  have hlt : q < d.size := by
    by_contra hle
    rw [hd.allocated q (not_lt.mp hle)] at he
    cases he
  have hne : q ∉ d.current.head? := by
    rw [hd.current, List.head?_cons, Option.mem_some]
    omega
  rw [h.kept q hlt hne, he]

theorem Completed.item (h : Completed d d' v) (hd : d.Filling top up) {vs : List Value}
    (hvs : Represents d.elements top (.list vs)) :
    Represents d'.elements top (.list (vs ++ [v])) := by
  obtain ⟨ps, hps, hitems⟩ := hvs
  refine ⟨ps ++ [d.size], ?_, ?_⟩
  · rw [h.top top (by rw [hd.current]; rfl), hps]
    rfl
  · exact RepresentsItems.append hd.top_lt h.represents ps vs
      (RepresentsItems.congr top ps vs (h.agree hd) hitems)

theorem Completed.entry (h : Completed d d' v) (hd : d.Filling top up)
    {vs : List (List UInt8 × Value)} {key : List UInt8} (hkey : d.key = some key)
    (hvs : Represents d.elements top (.dictionary vs)) :
    Represents d'.elements top (.dictionary (vs ++ [(key, v)])) := by
  obtain ⟨es, hes, hentries⟩ := hvs
  refine ⟨es ++ [(some key, d.size)], ?_, ?_⟩
  · rw [h.top top (by rw [hd.current]; rfl), hes, hkey]
    rfl
  · exact RepresentsEntries.append hd.top_lt h.represents es vs
      (RepresentsEntries.congr top es vs (h.agree hd) hentries)

theorem filled_done (hd : d.Filling top up) (hkey : d.key = none)
    (hv : Represents d.elements top v) : Filled d { d with current := up } top up v :=
  ⟨fun _ _ _ => rfl, le_rfl, hd.isFirst, rfl, hkey, hd.allocated, rfl, hv⟩

theorem Filled.step {d'' : Driver} {w : Value} (hd : d.Filling top up) (h : Completed d d' v)
    (h' : Filled d' d'' top up w) : Filled d d'' top up w where
  kept q hq hne := by
    have hhead : q ∉ d.current.head? := by
      rw [hd.current, List.head?_cons, Option.mem_some]
      exact Ne.symm hne
    rw [h'.kept q (hq.trans h.size) hne, h.kept q hq hhead]
  size := h.size.le.trans h'.size
  isFirst := h'.isFirst
  bencoding := by rw [h'.bencoding, h.bencoding, if_neg (by rw [hd.current]; simp)]
  key := h'.key
  allocated := h'.allocated
  current := h'.current
  represents := h'.represents

theorem pop_ok (hd : d.Filling top up) : d.pop = .ok { d with current := up } := by
  rw [Driver.pop, hd.current]

end Completed

theorem Entries.exists_bytes (entries : Entries) : ∃ b t, entries.bytes = b :: t := by
  refine List.exists_cons_of_ne_nil ?_
  cases entries <;> simp [Entries.bytes]

section Entry

variable {ndebug : Bool} {stack : List StartCondition} {contexts : List Context} {d : Driver}
  {key rest : List UInt8}

theorem Driver.Filling.withKey {top : ℕ} {up : List ℕ} (hd : d.Filling top up) :
    { d with key := some key }.Filling top up :=
  ⟨hd.current, hd.top_lt, hd.isFirst, hd.bencoding, hd.allocated⟩

/-- A key leaves the scanner, the grammar and the driver in front of its value. -/
theorem parseFrom_key {length : List UInt8} (h : Counts length key) (hkey : d.key = none) :
    parseFrom ndebug ⟨⟨.dictionaryKey, stack, length ++ ':'.toUInt8 :: (key ++ rest)⟩,
        .dictionaryItems :: contexts, d⟩ =
      parseFrom ndebug ⟨⟨.dictionaryValue, keyCondition key :: stack, rest⟩,
        .dictionaryValue :: contexts, { d with key := some key }⟩ := by
  have hpushKey : d.pushKey ndebug key = .ok { d with key := some key } := by
    simp [Driver.pushKey, hkey]
  exact parseFrom_next (yylex_key h.1 h.2) (by rw [reduce, hpushKey]; rfl)

theorem parseElement_value {b : UInt8} {k : StartCondition} :
    parseElement ndebug ((⟨.dictionaryValue, k :: stack, []⟩ : Scanner).resume.continueAt (b :: rest))
        (.dictionaryValue :: contexts) d =
      parseFrom ndebug ⟨⟨.dictionaryKey, stack, b :: rest⟩, .dictionaryItems :: contexts, d⟩ :=
  parseFrom_congr yylex_dictionaryValue2 _ _

end Entry

theorem parses_scalar {ndebug : Bool} {s s' : Scanner} {contexts : List Context} {d : Driver}
    {t : Token} {e : Element} {v : Value} (hlex : yylex ndebug s = .ok (t, s'))
    (ht : t ≠ .endOfList) (hcontexts : TakesElement contexts) (hd : d.Ready)
    (he : e.isContainer = false) (hitem : reduceItem ndebug t contexts d =
      (do reduceElement ndebug contexts (← d.push ndebug e)))
    (hv : ∀ elements p, elements p = some e → Represents elements p v) :
    ∃ d', Completed d d' v ∧
      parseFrom ndebug ⟨s, contexts, d⟩ = parseElement ndebug s' contexts d' := by
  obtain ⟨d', hpush, hhung, hcell, hcurrent⟩ := @push_ok ndebug d hd e
  refine ⟨d'.enter d.size e, completed_scalar hhung hcurrent he (hv _ _ hcell), ?_⟩
  refine parseFrom_element hlex ?_ (by simpa using hhung.bencoding_isSome hd)
  rw [reduce_item hcontexts ht, hitem, hpush]
  rfl

section Container

variable {ndebug : Bool} {s s' s'' : Scanner} {contexts : List Context} {d : Driver} {t : Token}
  {e : Element} {c : Context} {v : Value}

theorem parseFrom_open (hlex : yylex ndebug s = .ok (t, s')) (ht : t ≠ .endOfList)
    (hcontexts : TakesElement contexts) (hd : d.Ready)
    (hitem : reduceItem ndebug t contexts d =
      (do pure (.next (c :: resumeContexts contexts) (← d.push ndebug e)))) :
    ∃ d', Hung d d' ∧ d'.current = d.current ∧ (d'.enter d.size e).elements d.size = some e ∧
      parseFrom ndebug ⟨s, contexts, d⟩ =
        parseFrom ndebug ⟨s', c :: resumeContexts contexts, d'.enter d.size e⟩ := by
  obtain ⟨d', hpush, hhung, hcell, hcurrent⟩ := @push_ok ndebug d hd e
  have hreduce : reduce ndebug t contexts d =
      .ok (.next (c :: resumeContexts contexts) (d'.enter d.size e)) := by
    rw [reduce_item hcontexts ht, hitem, hpush]
    rfl
  exact ⟨d', hhung, hcurrent, by simpa using hcell, parseFrom_next hlex hreduce⟩

theorem parses_container (hlex : yylex ndebug s = .ok (t, s')) (ht : t ≠ .endOfList)
    (hcontexts : TakesElement contexts) (hd : d.Ready) (he : e.isContainer = true)
    (hitem : reduceItem ndebug t contexts d =
      (do pure (.next (c :: resumeContexts contexts) (← d.push ndebug e))))
    (hfill : ∀ d1 up, Driver.Filling d1 d.size up → d1.key = none → d1.elements d.size = some e →
      ∃ d2, Filled d1 d2 d.size up v ∧
        parseFrom ndebug ⟨s', c :: resumeContexts contexts, d1⟩ =
          parseElement ndebug s'' (resumeContexts contexts) d2) :
    ∃ d', Completed d d' v ∧
      parseFrom ndebug ⟨s, contexts, d⟩ = parseElement ndebug s'' contexts d' := by
  obtain ⟨d', hhung, hcurrent, hcell, hopen⟩ := parseFrom_open hlex ht hcontexts hd hitem
  obtain ⟨d'', hfilled, hparse⟩ := hfill _ _ (filling_enter hd hhung he)
    (by simpa using hhung.key) hcell
  refine ⟨d'', completed_container hd hhung hcurrent hfilled, ?_⟩
  exact hopen.trans (hparse.trans parseElement_resume)

theorem rejects_container (hlex : yylex ndebug s = .ok (t, s')) (ht : t ≠ .endOfList)
    (hcontexts : TakesElement contexts) (hd : d.Ready) (he : e.isContainer = true)
    (hitem : reduceItem ndebug t contexts d =
      (do pure (.next (c :: resumeContexts contexts) (← d.push ndebug e))))
    (hfill : ∀ d1 up, Driver.Filling d1 d.size up → d1.key = none → d1.elements d.size = some e →
      Rejects (parseFrom ndebug ⟨s', c :: resumeContexts contexts, d1⟩)) :
    Rejects (parseFrom ndebug ⟨s, contexts, d⟩) := by
  obtain ⟨d', hhung, -, hcell, hopen⟩ := parseFrom_open hlex ht hcontexts hd hitem
  rw [hopen]
  exact hfill _ _ (filling_enter hd hhung he) (by simpa using hhung.key) hcell

end Container

mutual

/-- Parsing a tree: induction on the tree, whose tokens come one after the other. -/
theorem Source.parses (ndebug : Bool) : ∀ (source : Source) (s : Scanner)
    (contexts : List Context) (d : Driver) (rest : List UInt8), s.start.Element →
    TakesElement contexts → d.Ready → source.Scanned → ∃ d', Completed d d' source.value ∧
      parseFrom ndebug ⟨s.continueAt (source.bytes ++ rest), contexts, d⟩ =
        parseElement ndebug (s.resume.continueAt rest) contexts d'
  | .integer text, s, contexts, d, rest, hs, hcontexts, hd, h => by
    have hbytes : (Source.integer text).bytes ++ rest =
        'i'.toUInt8 :: (text ++ 'e'.toUInt8 :: rest) := by simp [Source.bytes]
    rw [hbytes]
    exact parses_scalar (yylex_integer hs h) (by simp) hcontexts hd (by rfl) rfl fun _ _ h => h
  | .string length octets, s, contexts, d, rest, hs, hcontexts, hd, h => by
    have hbytes : (Source.string length octets).bytes ++ rest =
        length ++ ':'.toUInt8 :: (octets ++ rest) := by simp [Source.bytes]
    rw [hbytes]
    exact parses_scalar (yylex_string hs h.2.1 h.1 h.2.2) (by simp) hcontexts hd (by rfl) rfl
      fun _ _ h => h
  | .list items, s, contexts, d, rest, hs, hcontexts, hd, h =>
    parses_container (yylex_list hs) (by simp) hcontexts hd (by rfl) rfl fun d1 up hd1 hkey hcell =>
      items.parses ndebug s.resume.start s.resume.stack (resumeContexts contexts) d1 d.size up []
        rest hd1 hkey ⟨[], hcell, trivial⟩ h
  | .dictionary entries, s, contexts, d, rest, hs, hcontexts, hd, h =>
    parses_container (yylex_dictionary hs) (by simp) hcontexts hd (by rfl) rfl
      fun d1 up hd1 hkey hcell =>
        entries.parses ndebug s.resume.start s.resume.stack (resumeContexts contexts) d1 d.size up []
          rest hd1 hkey ⟨[], hcell, trivial⟩ h

theorem Items.parses (ndebug : Bool) : ∀ (items : Items) (c : StartCondition)
    (stack : List StartCondition) (contexts : List Context) (d : Driver) (top : ℕ) (up : List ℕ)
    (vs : List Value) (rest : List UInt8), d.Filling top up → d.key = none →
    Represents d.elements top (.list vs) → items.Scanned →
    ∃ d', Filled d d' top up (.list (vs ++ items.values)) ∧
      parseFrom ndebug ⟨⟨.list, c :: stack, items.bytes ++ rest⟩, .listItems :: contexts, d⟩ =
        parseElement ndebug ⟨c, stack, rest⟩ contexts d'
  | .done, c, stack, contexts, d, top, up, vs, rest, hd, hkey, hvs, _ => by
    refine ⟨_, by simpa [Items.values] using filled_done hd hkey hvs, ?_⟩
    refine parseFrom_element yylex_endOfList ?_ hd.bencoding
    rw [reduce, pop_ok hd]
    rfl
  | .item head tail, c, stack, contexts, d, top, up, vs, rest, hd, hkey, hvs, h => by
    obtain ⟨ps, hps, -⟩ := id hvs
    obtain ⟨d', hcompleted, hparse⟩ := head.parses ndebug
      ⟨.list, c :: stack, []⟩ (.listItems :: contexts) d (tail.bytes ++ rest) (.inr (.inl rfl))
      (by simp [TakesElement]) (.item hd hps hkey) h.1
    obtain ⟨d'', hfilled, hparse'⟩ := tail.parses ndebug c stack contexts d' top up
      (vs ++ [head.value]) rest (hcompleted.filling hd) hcompleted.key (hcompleted.item hd hvs) h.2
    refine ⟨d'', ?_, ?_⟩
    · rw [List.append_assoc] at hfilled
      exact Filled.step hd hcompleted hfilled
    · rw [Items.bytes, List.append_assoc]
      exact hparse.trans hparse'

theorem Entries.parses (ndebug : Bool) : ∀ (entries : Entries) (c : StartCondition)
    (stack : List StartCondition) (contexts : List Context) (d : Driver) (top : ℕ) (up : List ℕ)
    (vs : List (List UInt8 × Value)) (rest : List UInt8), d.Filling top up → d.key = none →
    Represents d.elements top (.dictionary vs) → entries.Scanned →
    ∃ d', Filled d d' top up (.dictionary (vs ++ entries.values)) ∧
      parseFrom ndebug
        ⟨⟨.dictionaryKey, c :: stack, entries.bytes ++ rest⟩, .dictionaryItems :: contexts, d⟩ =
        parseElement ndebug ⟨c, stack, rest⟩ contexts d'
  | .done stray, c, stack, contexts, d, top, up, vs, rest, hd, hkey, hvs, h => by
    refine ⟨_, by simpa [Entries.values] using filled_done hd hkey hvs, ?_⟩
    rw [Entries.bytes, List.append_assoc]
    refine parseFrom_element (yylex_endOfDictionary h) ?_ hd.bencoding
    rw [reduce, pop_ok hd]
    rfl
  | .entry length key value tail, c, stack, contexts, d, top, up, vs, rest, hd, hkey, hvs, h => by
    obtain ⟨es, hes, -⟩ := id hvs
    obtain ⟨d', hcompleted, hparse⟩ := value.parses ndebug
      ⟨.dictionaryValue, keyCondition key :: c :: stack, []⟩ (.dictionaryValue :: contexts)
      { d with key := some key } (tail.bytes ++ rest) (.inr (.inr rfl)) (by simp [TakesElement])
      (.value hd.withKey hes rfl) h.2.1
    obtain ⟨d'', hfilled, hparse'⟩ := tail.parses ndebug c stack contexts d' top up
      (vs ++ [(key, value.value)]) rest (hcompleted.filling hd.withKey) hcompleted.key
      (hcompleted.entry hd.withKey rfl hvs) h.2.2
    refine ⟨d'', ?_, ?_⟩
    · rw [List.append_assoc] at hfilled
      obtain ⟨h1, h2, h3, h4, h5, h6, h7, h8⟩ := Filled.step hd.withKey hcompleted hfilled
      exact ⟨h1, h2, h3, h4, h5, h6, h7, h8⟩
    · have hbytes : (Entries.entry length key value tail).bytes ++ rest =
          length ++ ':'.toUInt8 :: (key ++ (value.bytes ++ (tail.bytes ++ rest))) := by
        simp [Entries.bytes]
      obtain ⟨b, t, hb⟩ := tail.exists_bytes
      rw [hbytes, parseFrom_key h.1 hkey]
      rw [hb] at hparse hparse' ⊢
      exact hparse.trans (parseElement_value.trans hparse')

end
end ACENetwork.BitTorrent.Bencoding
