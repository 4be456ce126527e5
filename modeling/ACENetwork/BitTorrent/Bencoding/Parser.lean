import ACENetwork.BitTorrent.Bencoding.Tokens

/-!
# The bencoding parser

The actions of `bencoding_parser.yy` on the driver. The driver allocates an element
for every token, hangs it into the container on top of its stack, and follows the
containers with pointers, so an element is filled after it has been hung up.
-/
namespace ACENetwork.BitTorrent.Bencoding
open Library

/-- A `Bencoding_Element`; the elements of a container are pointers. -/
inductive Element where
  | integer (value : Int64)
  | string (value : List UInt8)
  | list (elements : List ℕ)
  | dictionary (entries : List (Option (List UInt8) × ℕ))
  deriving DecidableEq, Repr

def Element.isContainer : Element → Bool
  | .integer _ | .string _ => false
  | .list _ | .dictionary _ => true

/-- `BitTorrent_Bencoding_ParserDriver` with the elements that it has allocated. -/
structure Driver where
  bencoding : Option ℕ := none
  isFirst : Bool := true
  current : List ℕ := []
  key : Option (List UInt8) := none
  elements : ℕ → Option Element := fun _ => none
  size : ℕ := 0

namespace Driver

def new (d : Driver) (e : Element) : Driver :=
  { d with elements := Function.update d.elements d.size (some e), size := d.size + 1 }

def store (d : Driver) (p : ℕ) (e : Element) : Driver :=
  { d with elements := Function.update d.elements p (some e) }

def setFirst (ndebug : Bool) (d : Driver) (p : ℕ) : Except Fault Driver :=
  if d.isFirst then do
    aceAssert ndebug d.bencoding.isNone
    pure { d with isFirst := false, bencoding := some p }
  else pure d

def hang (ndebug : Bool) (d : Driver) (top p : ℕ) : Except Fault Driver :=
  match d.elements top with
  | none => .error .nullPointer
  | some (.list elements) => pure (d.store top (.list (elements ++ [p])))
  | some (.dictionary entries) => do
    aceAssert ndebug d.key.isSome
    pure { d.store top (.dictionary (entries ++ [(d.key, p)])) with key := none }
  | some _ => do
    aceAssert ndebug false
    pure d

def enter (d : Driver) (p : ℕ) (e : Element) : Driver :=
  if e.isContainer then { d with current := p :: d.current } else d

def push (ndebug : Bool) (d : Driver) (e : Element) : Except Fault Driver := do
  let p := d.size
  let d ← (d.new e).setFirst ndebug p
  match d.current with
  | [] => pure (d.enter p e)
  | top :: _ => do
    let d ← d.hang ndebug top p
    pure (d.enter p e)

def pushKey (ndebug : Bool) (d : Driver) (key : List UInt8) : Except Fault Driver := do
  aceAssert ndebug d.key.isNone
  pure { d with key := some key }

/-- `current_.pop ()`, which a stack does not survive when it is empty. -/
def pop (d : Driver) : Except Fault Driver :=
  match d.current with
  | [] => .error .outOfRange
  | _ :: current => .ok { d with current := current }

/-- `record` on the element that `current ()` returns. -/
def record (ndebug : Bool) (d : Driver) : Except Fault Unit := do
  aceAssert ndebug d.bencoding.isSome
  match d.bencoding with
  | none => .error .nullPointer
  | some _ => pure ()

end Driver

/-- Where the grammar stands: among the items of a list, among those of a dictionary, or
behind the key of one. -/
inductive Context where
  | listItems
  | dictionaryItems
  | dictionaryValue
  deriving DecidableEq, Repr

/-- The contexts behind an element: a dictionary item ends with its value. -/
def resumeContexts : List Context → List Context
  | .dictionaryValue :: up => .dictionaryItems :: up
  | contexts => contexts

/-- What the parser does on a token: it goes on, `YYACCEPT`s, or aborts on a syntax error. -/
inductive Reduction where
  | next (contexts : List Context) (d : Driver)
  | accept (d : Driver)
  | abort

def reduceElement (ndebug : Bool) (contexts : List Context) (d : Driver) :
    Except Fault Reduction :=
  match resumeContexts contexts with
  | [] => do
    d.record ndebug
    pure (.accept d)
  | contexts => pure (.next contexts d)

/-- The rules of `bencoding`, `list_item` and `dictionary_value`, which are the same but for
what follows the element. -/
def reduceItem (ndebug : Bool) (t : Token) (contexts : List Context) (d : Driver) :
    Except Fault Reduction :=
  match t with
  | .integer ival => do reduceElement ndebug contexts (← d.push ndebug (.integer ival))
  | .string sval => do reduceElement ndebug contexts (← d.push ndebug (.string sval))
  | .list => do
    pure (.next (.listItems :: resumeContexts contexts) (← d.push ndebug (.list [])))
  | .dictionary => do
    pure (.next (.dictionaryItems :: resumeContexts contexts) (← d.push ndebug (.dictionary [])))
  | _ => .ok .abort

def reduce (ndebug : Bool) (t : Token) (contexts : List Context) (d : Driver) :
    Except Fault Reduction :=
  match contexts, t with
  | .listItems :: up, .endOfList => do reduceElement ndebug up (← d.pop)
  | .dictionaryItems :: up, .string sval => do
    pure (.next (.dictionaryValue :: up) (← d.pushKey ndebug sval))
  | .dictionaryItems :: up, .endOfDictionary => do reduceElement ndebug up (← d.pop)
  | .dictionaryItems :: _, _ => .ok .abort
  | _, _ => reduceItem ndebug t contexts d

theorem reduce_done {ndebug : Bool} (contexts : List Context) (d : Driver) :
    reduce ndebug .done contexts d = .ok .abort := by
  rcases contexts with _ | ⟨_ | _ | _, up⟩ <;> rfl

structure ParserState where
  scanner : Scanner
  contexts : List Context
  driver : Driver

abbrev ParseResult := Except Fault (Option (Driver × Scanner))

/-- The loop of `parse`: a token, and the reductions that it leads to. -/
def parser (ndebug : Bool) : Transducer ParserState Empty ParseResult where
  step p :=
    match yylex ndebug p.scanner with
    | .error e => .halt (.error e)
    | .ok (t, s) =>
      match reduce ndebug t p.contexts p.driver with
      | .error e => .halt (.error e)
      | .ok (.next contexts d) => .silent ⟨s, contexts, d⟩
      | .ok (.accept d) => .halt (.ok (some (d, s)))
      | .ok .abort => .halt (.ok none)
  rank p := p.scanner.input.length
  rank_lt p q h := by
    split at h
    · simp [Move.next?] at h
    · next t s hlex =>
      split at h <;> simp [Move.next?] at h
      next contexts d hreduce =>
      subst h
      refine lex_consumes hlex ?_
      rintro rfl
      rw [reduce_done] at hreduce
      cases hreduce

def parseFrom (ndebug : Bool) (p : ParserState) : ParseResult := ((parser ndebug).run p).2

def parse (ndebug : Bool) (input : List UInt8) : ParseResult :=
  parseFrom ndebug ⟨⟨.initial, [], input⟩, [], {}⟩

section

variable {ndebug : Bool} {p : ParserState} {t : Token} {s : Scanner}

theorem parseFrom_next {contexts : List Context} {d : Driver}
    (hlex : yylex ndebug p.scanner = .ok (t, s))
    (hreduce : reduce ndebug t p.contexts p.driver = .ok (.next contexts d)) :
    parseFrom ndebug p = parseFrom ndebug ⟨s, contexts, d⟩ := by
  have hstep : (parser ndebug).step p = .silent ⟨s, contexts, d⟩ := by
    simp [parser, hlex, hreduce]
  rw [parseFrom, (parser ndebug).run_silent hstep, parseFrom]

theorem parseFrom_accept {d : Driver} (hlex : yylex ndebug p.scanner = .ok (t, s))
    (hreduce : reduce ndebug t p.contexts p.driver = .ok (.accept d)) :
    parseFrom ndebug p = .ok (some (d, s)) := by
  rw [parseFrom, (parser ndebug).run_halt (by simp [parser, hlex, hreduce]; rfl)]

def Rejects (r : ParseResult) : Prop := ∀ d s, r ≠ .ok (some (d, s))

theorem rejects_abort (hlex : yylex ndebug p.scanner = .ok (t, s))
    (hreduce : reduce ndebug t p.contexts p.driver = .ok .abort) :
    Rejects (parseFrom ndebug p) := by
  rw [parseFrom, (parser ndebug).run_halt (by simp [parser, hlex, hreduce]; rfl)]
  rintro d s ⟨⟩

theorem rejects_of_starved (h : Starved (yylex ndebug p.scanner)) :
    Rejects (parseFrom ndebug p) := by
  cases hlex : yylex ndebug p.scanner with
  | error e =>
    rw [parseFrom, (parser ndebug).run_halt (by simp [parser, hlex]; rfl)]
    rintro d s ⟨⟩
  | ok r =>
    obtain ⟨t, s⟩ := r
    obtain rfl := h t s hlex
    exact rejects_abort hlex (reduce_done _ _)

theorem parseFrom_congr {s s' : Scanner} (h : yylex ndebug s = yylex ndebug s')
    (contexts : List Context) (d : Driver) :
    parseFrom ndebug ⟨s, contexts, d⟩ = parseFrom ndebug ⟨s', contexts, d⟩ := by
  have hstep : (parser ndebug).step ⟨s, contexts, d⟩ = (parser ndebug).step ⟨s', contexts, d⟩ := by
    simp only [parser, h]
  rw [parseFrom, parseFrom, (parser ndebug).run_congr hstep]

end
end ACENetwork.BitTorrent.Bencoding
