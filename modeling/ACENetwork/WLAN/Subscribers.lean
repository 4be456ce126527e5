import ACENetwork.BitTorrent.Common
import ACENetwork.Library.Nodes

/-!
# The subscribers of the WLAN monitor

The notification loops of `Net_WLAN_Monitor_Base_T`. A loop moves its iterator on before it calls a
subscriber, whose callback may subscribe and unsubscribe, itself included; what an exception cuts
off is not among its actions.
-/
namespace ACENetwork.WLAN.Subscribers
open BitTorrent (Fault)
open Library

/-- What a callback does with the list, the handle possibly being null. -/
inductive Action (σ : Type) where
  | subscribe (handle : Option σ)
  | unsubscribe (handle : Option σ)
  deriving DecidableEq

variable {σ : Type} [DecidableEq σ]

def subscribe (l : Nodes σ) : Option σ → Nodes σ
  | none => l
  | some x => l.pushBack x

def unsubscribed (l : Nodes σ) (handle : Option σ) : Option ℕ :=
  l.find? fun x => handle = some x

def unsubscribe (l : Nodes σ) (handle : Option σ) : Nodes σ :=
  match unsubscribed l handle with
  | none => l
  | some k => l.erase k

def act (l : Nodes σ) : Action σ → Nodes σ
  | .subscribe handle => subscribe l handle
  | .unsubscribe handle => unsubscribe l handle

/-- A loop over the subscribers, with those it has called. -/
structure Loop (σ : Type) where
  subscribers : Nodes σ
  iterator : Option ℕ
  calls : List σ

/-- What the callback of the last called one does, after these calls. -/
abbrev Callback (σ : Type) := List σ → List (Action σ)

/-- One round: the iterator is moved on, and the subscriber is called. -/
def round (callback : Callback σ) (s : Loop σ) : Except Fault (Loop σ) :=
  match s.iterator with
  | none => .ok s
  | some k =>
    match s.subscribers.value? (some k) with
    | none => .error .endIterator
    | some x =>
      .ok { subscribers := (callback (s.calls ++ [x])).foldl act s.subscribers
            iterator := s.subscribers.next k
            calls := s.calls ++ [x] }

/-- The first rounds of a loop; it stays where it has ended. -/
def rounds (callback : Callback σ) (l : Nodes σ) : ℕ → Except Fault (Loop σ)
  | 0 => .ok ⟨l, l.first, []⟩
  | n + 1 => rounds callback l n >>= round callback

inductive Notification where
  | onAssociate
  | onDisassociate
  | onConnect
  | onScanComplete

def onAssociate (callbacks : Notification → Callback σ) := rounds (callbacks .onAssociate)

def onDisassociate (callbacks : Notification → Callback σ) := rounds (callbacks .onDisassociate)

def onConnect (callbacks : Notification → Callback σ) := rounds (callbacks .onConnect)

def onScanComplete (callbacks : Notification → Callback σ) := rounds (callbacks .onScanComplete)

def loop (callbacks : Notification → Callback σ) :
    Notification → Nodes σ → ℕ → Except Fault (Loop σ)
  | .onAssociate => onAssociate callbacks
  | .onDisassociate => onDisassociate callbacks
  | .onConnect => onConnect callbacks
  | .onScanComplete => onScanComplete callbacks

theorem loop_eq (callbacks : Notification → Callback σ) (notification : Notification) :
    loop callbacks notification = rounds (callbacks notification) := by
  cases notification <;> rfl

/-- A round that calls a subscriber, from one state of the loop to the next. -/
def Round (callback : Callback σ) (l : Nodes σ) (s s' : Loop σ) : Prop :=
  ∃ n, rounds callback l n = .ok s ∧ s.iterator ≠ none ∧ round callback s = .ok s'

/-- Nobody unsubscribes this one while the loop runs. -/
def Stays (callback : Callback σ) (l : Nodes σ) (x : σ) : Prop :=
  ∀ s s', Round callback l s s' → Action.unsubscribe (some x) ∉ callback s'.calls

structure Notifies (callbacks : Notification → Callback σ) (notification : Notification)
    (l : Nodes σ) : Prop where
  /-- no iterator is dereferenced whose element has been erased -/
  derefs : ∀ n, ∃ s, loop callbacks notification l n = .ok s
  /-- the one that is called is on the list -/
  listed : ∀ s s', Round (callbacks notification) l s s' →
    ∃ x ∈ s.subscribers.values, s'.calls = s.calls ++ [x]
  /-- callbacks that only unsubscribe let the loop end -/
  ends : (∀ calls, ∀ a ∈ callbacks notification calls, ∃ handle, a = .unsubscribe handle) →
    ∃ n s, loop callbacks notification l n = .ok s ∧ s.iterator = none
  /-- who stays is called once -/
  once : ∀ x ∈ l.values, Stays (callbacks notification) l x →
    ∃ N, ∀ n, N ≤ n → ∀ s, loop callbacks notification l n = .ok s → s.calls.count x = 1

def Spares (it : Option ℕ) : Nodes σ → List (Action σ) → Prop
  | _, [] => True
  | l, a :: as =>
    (∀ handle, a = .unsubscribe handle → it = none ∨ unsubscribed l handle ≠ it) ∧
      Spares it (act l a) as

/-- No callback unsubscribes the one behind its own, which the loop is about to call. -/
def SparesNext (callback : Callback σ) (l : Nodes σ) : Prop :=
  ∀ s s', Round callback l s s' → Spares s'.iterator s.subscribers (callback s'.calls)

/-- Who stays is on the list once: nobody subscribes it again, other than in the last call. -/
def ListedOnce (callback : Callback σ) (l : Nodes σ) : Prop :=
  ∀ x ∈ l.values, Stays callback l x → l.values.count x = 1 ∧
    ∀ s s', Round callback l s s' → s'.iterator ≠ none →
      Action.subscribe (some x) ∉ callback s'.calls

section Actions

variable {l : Nodes σ} {it : Option ℕ} {k : ℕ} {x : σ} {actions : List (Action σ)} {a : Action σ}

def aheadCount (x : σ) (l : Nodes σ) (it : Option ℕ) : ℕ := (l.ahead it).countP (·.2 = x)

/-- An action leaves the list alone, appends a subscriber or erases a node. -/
theorem act_cases (l : Nodes σ) (a : Action σ) :
    (act l a = l ∧ (∀ x, a ≠ .subscribe (some x)) ∧
        ∀ handle, a = .unsubscribe handle → unsubscribed l handle = none) ∨
      (∃ x, a = .subscribe (some x) ∧ act l a = l.pushBack x) ∨
      ∃ handle k, a = .unsubscribe handle ∧ unsubscribed l handle = some k ∧ act l a = l.erase k := by
  cases a with
  | subscribe handle =>
    cases handle with
    | none => exact .inl ⟨rfl, by simp, by simp⟩
    | some x => exact .inr (.inl ⟨x, rfl, rfl⟩)
  | unsubscribe handle =>
    cases hfound : unsubscribed l handle with
    | none => exact .inl ⟨by simp [act, unsubscribe, hfound], by simp, by simp [hfound]⟩
    | some k => exact .inr (.inr ⟨handle, k, rfl, hfound, by simp [act, unsubscribe, hfound]⟩)

theorem fresh_act : l.fresh ≤ (act l a).fresh := by
  obtain ⟨hact, -⟩ | ⟨x, -, hact⟩ | ⟨handle, k, -, -, hact⟩ := act_cases l a
  · rw [hact]
  · rw [hact]
    exact Nat.le_succ _
  · rw [hact]
    exact le_rfl

theorem gone_act (hlt : k < l.fresh) (h : ¬ l.IsValid (some k)) : ¬ (act l a).IsValid (some k) := by
  obtain ⟨hact, -⟩ | ⟨x, -, hact⟩ | ⟨handle, j, -, -, hact⟩ := act_cases l a
  · rwa [hact]
  · rw [hact]
    exact Nodes.not_isValid_pushBack hlt h
  · rw [hact]
    exact Nodes.not_isValid_erase h

theorem gone_acts (hlt : k < l.fresh) (h : ¬ l.IsValid (some k)) :
    ¬ (actions.foldl act l).IsValid (some k) := by
  induction actions generalizing l with
  | nil => exact h
  | cons a actions ih => exact ih (hlt.trans_le fresh_act) (gone_act hlt h)

theorem isValid_act (h : l.IsValid (some k)) :
    (act l a).IsValid (some k) ↔ ∀ handle, a = .unsubscribe handle → unsubscribed l handle ≠ some k := by
  obtain ⟨hact, -, hnone⟩ | ⟨x, rfl, hact⟩ | ⟨handle, j, rfl, hfound, hact⟩ := act_cases l a
  · rw [hact]
    refine iff_of_true h fun handle ha => ?_
    rw [hnone handle ha]
    exact nofun
  · rw [hact]
    exact iff_of_true h.pushBack (by simp)
  · rw [hact, Nodes.isValid_erase h]
    simp [hfound, eq_comm]

/-- An iterator is valid behind some actions if and only if none of them erases its node. -/
theorem isValid_acts (h : l.IsValid (some k)) :
    (actions.foldl act l).IsValid (some k) ↔ Spares (some k) l actions := by
  induction actions generalizing l with
  | nil => exact iff_of_true h trivial
  | cons a actions ih =>
    have hact := isValid_act (a := a) h
    simp only [Spares, reduceCtorEq, false_or, List.foldl_cons]
    rw [← hact]
    by_cases hvalid : (act l a).IsValid (some k)
    · rw [ih hvalid]
      exact ⟨fun h => ⟨hvalid, h⟩, fun h => h.2⟩
    · exact iff_of_false (gone_acts (h.lt_fresh.trans_le fresh_act) hvalid) fun h => hvalid h.1

theorem spares_none (l : Nodes σ) (actions : List (Action σ)) : Spares none l actions := by
  induction actions generalizing l with
  | nil => trivial
  | cons a actions ih => exact ⟨fun _ _ => .inl rfl, ih (act l a)⟩

theorem Spares.isValid (h : Spares it l actions) (hvalid : l.IsValid it) :
    (actions.foldl act l).IsValid it := by
  cases it with
  | none => exact Nodes.isValid_none
  | some k => exact (isValid_acts hvalid).mpr h

theorem ne_of_unsubscribed {handle : Option σ} (h : unsubscribed l handle = some k)
    (hx : handle ≠ some x) : ∀ e ∈ l.entries, e.2 = x → e.1 ≠ k := by
  rintro e he rfl hkey
  have hvalue := Nodes.find?_some h e he hkey
  exact hx (of_decide_eq_true hvalue)

/-- The nodes of a subscriber ahead change by its own subscription only. -/
theorem aheadCount_act (hvalid : l.IsValid it) (hafter : (act l a).IsValid it)
    (hx : a ≠ .unsubscribe (some x)) :
    aheadCount x (act l a) it =
      aheadCount x l it + (if it ≠ none ∧ a = .subscribe (some x) then 1 else 0) := by
  cases it with
  | none => simp [aheadCount]
  | some k =>
    unfold aheadCount
    obtain ⟨hact, hne, -⟩ | ⟨y, rfl, hact⟩ | ⟨handle, j, rfl, hfound, hact⟩ := act_cases l a
    · simp [hact, hne x]
    · rw [hact, Nodes.ahead_pushBack hvalid, List.countP_append, List.countP_singleton]
      simp
    · have hkey : k ≠ j := by
        rw [hact] at hafter
        exact (Nodes.isValid_erase hvalid).mp hafter
      have hother := ne_of_unsubscribed hfound (x := x) fun h => hx (congrArg _ h)
      rw [hact, Nodes.ahead_erase hkey, List.countP_filter]
      simp only [reduceCtorEq, and_false, if_false, Nat.add_zero]
      refine List.countP_congr fun e he => ?_
      have := hother e (Nodes.mem_of_mem_ahead he)
      simpa using this

theorem Spares.isValid_head (h : Spares it l (a :: actions)) (hvalid : l.IsValid it) :
    (act l a).IsValid it := by
  have hone : Spares it l [a] := ⟨h.1, trivial⟩
  exact hone.isValid hvalid

theorem aheadCount_acts (hvalid : l.IsValid it) (hspares : Spares it l actions)
    (hx : .unsubscribe (some x) ∉ actions) :
    aheadCount x (actions.foldl act l) it =
      aheadCount x l it + (if it = none then 0 else actions.count (.subscribe (some x))) := by
  induction actions generalizing l with
  | nil => simp
  | cons a actions ih =>
    rw [List.mem_cons, not_or] at hx
    have hafter := hspares.isValid_head hvalid
    rw [List.foldl_cons, ih hafter hspares.2 hx.2, aheadCount_act hvalid hafter (Ne.symm hx.1),
      List.count_cons]
    cases it with
    | none => simp
    | some k =>
      simp only [ne_eq, reduceCtorEq, not_false_eq_true, true_and, if_false, beq_iff_eq]
      omega

def Within (x : σ) (n : ℕ) (nodes : List (ℕ × σ)) : Prop :=
  ∃ front e back, nodes = front ++ e :: back ∧ e.2 = x ∧ front.length ≤ n

theorem within_act {n : ℕ} (hvalid : l.IsValid it) (hafter : (act l a).IsValid it)
    (hx : a ≠ .unsubscribe (some x)) (h : Within x n (l.ahead it)) :
    Within x n ((act l a).ahead it) := by
  cases it with
  | none => exact h
  | some k =>
    obtain ⟨hact, -⟩ | ⟨y, -, hact⟩ | ⟨handle, j, rfl, hfound, hact⟩ := act_cases l a
    · rwa [hact]
    · obtain ⟨front, e, back, hahead, he, hn⟩ := h
      rw [hact, Nodes.ahead_pushBack hvalid, hahead]
      exact ⟨front, e, back ++ [(l.fresh, y)], by simp, he, hn⟩
    · have hkey : k ≠ j := by
        rw [hact] at hafter
        exact (Nodes.isValid_erase hvalid).mp hafter
      have hother := ne_of_unsubscribed hfound (x := x) fun h => hx (congrArg _ h)
      obtain ⟨front, e, back, hahead, he, hn⟩ := h
      have hmem : e ∈ l.ahead (some k) := by
        rw [hahead]
        simp
      refine ⟨front.filter (·.1 != j), e, back.filter (·.1 != j), ?_, he,
        (List.length_filter_le _ _).trans hn⟩
      rw [hact, Nodes.ahead_erase hkey, hahead, List.filter_append,
        List.filter_cons, if_pos (bne_iff_ne.mpr (hother e (Nodes.mem_of_mem_ahead hmem) he))]

theorem within_acts {n : ℕ} (hvalid : l.IsValid it) (hspares : Spares it l actions)
    (hx : .unsubscribe (some x) ∉ actions) (h : Within x n (l.ahead it)) :
    Within x n ((actions.foldl act l).ahead it) := by
  induction actions generalizing l with
  | nil => exact h
  | cons a actions ih =>
    rw [List.mem_cons, not_or] at hx
    have hafter := hspares.isValid_head hvalid
    exact ih hafter hspares.2 hx.2 (within_act hvalid hafter (Ne.symm hx.1) h)

theorem ahead_length_acts (hvalid : l.IsValid it) (hspares : Spares it l actions)
    (honly : ∀ a ∈ actions, ∃ handle, a = .unsubscribe handle) :
    ((actions.foldl act l).ahead it).length ≤ (l.ahead it).length := by
  induction actions generalizing l with
  | nil => exact le_rfl
  | cons a actions ih =>
    have hafter := hspares.isValid_head hvalid
    refine (ih hafter hspares.2 fun a ha => honly a (List.mem_cons_of_mem _ ha)).trans ?_
    obtain ⟨handle, rfl⟩ := honly a List.mem_cons_self
    cases it with
    | none => exact le_rfl
    | some k =>
      obtain ⟨hact, -⟩ | ⟨y, ⟨⟩, -⟩ | ⟨_, j, -, -, hact⟩ := act_cases l (.unsubscribe handle)
      · rw [hact]
      · rw [hact] at hafter ⊢
        rw [Nodes.ahead_erase ((Nodes.isValid_erase hvalid).mp hafter)]
        exact List.length_filter_le _ _

end Actions

section Rounds

variable {callback : Callback σ} {l : Nodes σ} {s s' t : Loop σ} {x : σ} {m n : ℕ}

theorem round_of_ahead {k : ℕ} {rest : List (ℕ × σ)} (hk : s.iterator = some k)
    (hahead : s.subscribers.ahead (some k) = (k, x) :: rest) :
    round callback s = .ok ⟨(callback (s.calls ++ [x])).foldl act s.subscribers,
      s.subscribers.next k, s.calls ++ [x]⟩ := by
  simp [round, hk, Nodes.value?_of_ahead hahead]

theorem round_of_none (h : s.iterator = none) : round callback s = .ok s := by
  simp [round, h]

theorem round_isOk : (∃ s', round callback s = .ok s') ↔ s.subscribers.IsValid s.iterator := by
  cases hit : s.iterator with
  | none => exact iff_of_true ⟨s, round_of_none hit⟩ Nodes.isValid_none
  | some k =>
    constructor
    · rintro ⟨s', h⟩
      rw [← Nodes.value?_isSome]
      cases hvalue : s.subscribers.value? (some k) with
      | none => simp [round, hit, hvalue] at h
      | some x => rfl
    · intro h
      obtain ⟨x, rest, hahead⟩ := Nodes.ahead_cons h
      exact ⟨_, round_of_ahead hit hahead⟩

theorem round_cases (hit : s.iterator ≠ none) (h : round callback s = .ok s') :
    ∃ k x rest, s.iterator = some k ∧ s.subscribers.ahead (some k) = (k, x) :: rest ∧
      s'.calls = s.calls ++ [x] ∧ s'.iterator = s.subscribers.next k ∧
        s'.subscribers = (callback s'.calls).foldl act s.subscribers := by
  obtain ⟨k, hk⟩ := Option.ne_none_iff_exists'.mp hit
  obtain ⟨x, rest, hahead⟩ := Nodes.ahead_cons (hk ▸ round_isOk.1 ⟨s', h⟩)
  rw [round_of_ahead hk hahead] at h
  obtain rfl := Except.ok.inj h
  exact ⟨k, x, rest, hk, hahead, rfl, rfl, rfl⟩

theorem rounds_zero : rounds callback l 0 = .ok ⟨l, l.first, []⟩ := rfl

theorem rounds_succ (h : rounds callback l n = .ok s) :
    rounds callback l (n + 1) = round callback s := by
  rw [rounds, h]
  rfl

/-- Every round leaves a valid iterator, if no callback erases the node that is next. -/
theorem valid_of_spares (hspares : SparesNext callback l) (n : ℕ) :
    ∃ s, rounds callback l n = .ok s ∧ s.subscribers.IsValid s.iterator := by
  induction n with
  | zero => exact ⟨_, rfl, Nodes.first_isValid⟩
  | succ n ih =>
    obtain ⟨s, hs, hvalid⟩ := ih
    by_cases hit : s.iterator = none
    · exact ⟨s, (rounds_succ hs).trans (round_of_none hit), hvalid⟩
    · obtain ⟨s', hs'⟩ := round_isOk.2 hvalid
      obtain ⟨k, x, rest, hk, hahead, -, hnext, hsubscribers⟩ := round_cases hit hs'
      refine ⟨s', (rounds_succ hs).trans hs', ?_⟩
      have hkept := hspares s s' ⟨n, hs, hit, hs'⟩
      rw [hsubscribers]
      exact hkept.isValid (hnext ▸ (Nodes.ahead_next hahead).2)

/-- The next round dereferences the iterator that a round has left. -/
theorem spares_of_derefs (h : ∀ n, ∃ s, rounds callback l n = .ok s) : SparesNext callback l := by
  rintro s s' ⟨n, hs, hit, hs'⟩
  obtain ⟨k, x, rest, hk, hahead, -, hnext, hsubscribers⟩ := round_cases hit hs'
  cases hit' : s'.iterator with
  | none => exact spares_none _ _
  | some j =>
    have hnow := (Nodes.ahead_next hahead).2
    rw [← hnext, hit'] at hnow
    rw [← isValid_acts hnow, ← hsubscribers, ← hit']
    obtain ⟨t, ht⟩ := h (n + 2)
    rw [rounds_succ ((rounds_succ hs).trans hs')] at ht
    exact round_isOk.1 ⟨t, ht⟩

def total (x : σ) (s : Loop σ) : ℕ := s.calls.count x + aheadCount x s.subscribers s.iterator

theorem total_round (hspares : SparesNext callback l) (hstays : Stays callback l x)
    (h : Round callback l s s') :
    total x s' = total x s +
      (if s'.iterator = none then 0 else (callback s'.calls).count (.subscribe (some x))) := by
  obtain ⟨k, y, rest, hk, hahead, hcalls, hnext, hsubscribers⟩ := round_cases h.choose_spec.2.1
    h.choose_spec.2.2
  obtain ⟨hrest, hvalid⟩ := Nodes.ahead_next hahead
  rw [← hnext] at hrest hvalid
  have hafter := aheadCount_acts hvalid (hspares s s' h) (hstays s s' h)
  have hbehind : aheadCount x s.subscribers s.iterator =
      aheadCount x s.subscribers s'.iterator + [y].count x := by
    unfold aheadCount
    rw [hk, hahead, hrest, List.countP_cons, List.count_singleton]
    simp
  unfold total
  rw [hsubscribers, hafter, hbehind, hcalls, List.count_append]
  omega

theorem calls_extended (h : round callback s = .ok s') : s.calls <+: s'.calls := by
  by_cases hit : s.iterator = none
  · rw [round_of_none hit] at h
    rw [Except.ok.inj h]
  · obtain ⟨-, x, -, -, -, hcalls, -⟩ := round_cases hit h
    exact ⟨[x], hcalls.symm⟩

theorem count_mono (hs : rounds callback l n = .ok s) (hmn : n ≤ m)
    (ht : rounds callback l m = .ok t) : s.calls.count x ≤ t.calls.count x := by
  induction m, hmn using Nat.le_induction generalizing t with
  | base =>
    rw [hs] at ht
    rw [Except.ok.inj ht]
  | succ m _ ih =>
    obtain ⟨u, hu, hround⟩ := BitTorrent.fault_bind_ok.mp ht
    exact (ih hu).trans ((calls_extended hround).sublist.count_le x)

theorem total_mono (hspares : SparesNext callback l) (hstays : Stays callback l x)
    (hs : rounds callback l n = .ok s) (hmn : n ≤ m) (ht : rounds callback l m = .ok t) :
    total x s ≤ total x t := by
  induction m, hmn using Nat.le_induction generalizing t with
  | base =>
    rw [hs] at ht
    rw [Except.ok.inj ht]
  | succ m _ ih =>
    obtain ⟨u, hu, hround⟩ := BitTorrent.fault_bind_ok.mp ht
    refine (ih hu).trans ?_
    by_cases hit : u.iterator = none
    · rw [round_of_none hit] at hround
      rw [Except.ok.inj hround]
    · rw [total_round hspares hstays ⟨m, hu, hit, hround⟩]
      exact Nat.le_add_right _ _

/-- A round calls the subscriber, or one of the nodes in front of its node. -/
theorem round_within (hspares : SparesNext callback l) (hstays : Stays callback l x) {d : ℕ}
    (h : Round callback l s s') (hwithin : Within x d (s.subscribers.ahead s.iterator)) :
    s.calls.count x < s'.calls.count x ∨
      ∃ d' < d, Within x d' (s'.subscribers.ahead s'.iterator) := by
  obtain ⟨n, -, hit, hround⟩ := id h
  obtain ⟨k, y, rest, hk, hahead, hcalls, hnext, hsubscribers⟩ := round_cases hit hround
  obtain ⟨hrest, hvalid⟩ := Nodes.ahead_next hahead
  rw [← hnext] at hrest hvalid
  obtain ⟨front, e, back, hsplit, rfl, hlength⟩ := hwithin
  rw [hk, hahead] at hsplit
  cases front with
  | nil =>
    left
    obtain ⟨rfl, -⟩ := List.cons.inj hsplit
    simp [hcalls]
  | cons first front =>
    right
    obtain ⟨-, rfl⟩ := List.cons.inj hsplit
    refine ⟨front.length, hlength, ?_⟩
    rw [hsubscribers]
    exact within_acts hvalid (hspares s s' h) (hstays s s' h) ⟨front, e, back, hrest, rfl, le_rfl⟩

theorem called_of_within (hspares : SparesNext callback l) (hstays : Stays callback l x) {d : ℕ}
    (hs : rounds callback l n = .ok s) (h : Within x d (s.subscribers.ahead s.iterator)) :
    ∃ m t, n ≤ m ∧ rounds callback l m = .ok t ∧ s.calls.count x < t.calls.count x := by
  induction d using Nat.strong_induction_on generalizing n s with
  | _ d ih =>
    have hit : s.iterator ≠ none := by
      intro hnone
      obtain ⟨front, e, back, hsplit, -⟩ := h
      simp [hnone] at hsplit
    obtain ⟨s', hs', -⟩ := valid_of_spares hspares (n + 1)
    have hround := hs'
    rw [rounds_succ hs] at hround
    rcases round_within hspares hstays ⟨n, hs, hit, hround⟩ h with hcalled | ⟨d', hd', hwithin⟩
    · exact ⟨n + 1, s', Nat.le_succ n, hs', hcalled⟩
    · obtain ⟨m, t, hm, ht, hlt⟩ := ih d' hd' hs' hwithin
      exact ⟨m, t, (Nat.le_succ n).trans hm, ht,
        ((calls_extended hround).sublist.count_le x).trans_lt hlt⟩

/-- In the end all nodes that a staying subscriber has had ahead are called. -/
theorem eventually_called (hspares : SparesNext callback l) (hstays : Stays callback l x)
    (hs : rounds callback l n = .ok s) {c : ℕ} (hc : c ≤ total x s) :
    ∃ m t, n ≤ m ∧ rounds callback l m = .ok t ∧ c ≤ t.calls.count x := by
  induction c with
  | zero => exact ⟨n, s, le_rfl, hs, Nat.zero_le _⟩
  | succ c ih =>
    obtain ⟨m, t, hm, ht, hle⟩ := ih (Nat.le_of_succ_le hc)
    rcases hle.lt_or_eq with hlt | heq
    · exact ⟨m, t, hm, ht, hlt⟩
    have htotal := total_mono hspares hstays hs hm ht
    have hpos : 0 < aheadCount x t.subscribers t.iterator := by
      unfold total at htotal hc
      omega
    obtain ⟨e, he, hx⟩ := List.countP_pos_iff.mp hpos
    obtain ⟨front, back, hsplit⟩ := List.append_of_mem he
    obtain ⟨m', t', hm', ht', hlt⟩ := called_of_within hspares hstays ht
      ⟨front, e, back, hsplit, of_decide_eq_true hx, le_rfl⟩
    exact ⟨m', t', hm.trans hm', ht', heq ▸ hlt⟩

theorem total_zero (hs : rounds callback l 0 = .ok s) : total x s = l.values.count x := by
  obtain rfl := Except.ok.inj hs
  unfold total aheadCount Nodes.values
  rw [Nodes.ahead_first, List.count_nil, Nat.zero_add, List.count_eq_countP, List.countP_map]
  exact List.countP_congr fun e _ => by simp

/-- Who is listed once has one call or one node ahead, at all times. -/
theorem total_eq_one (hspares : SparesNext callback l) (hstays : Stays callback l x)
    (hone : l.values.count x = 1) (hnever : ∀ s s', Round callback l s s' → s'.iterator ≠ none →
      Action.subscribe (some x) ∉ callback s'.calls) (hs : rounds callback l n = .ok s) :
    total x s = 1 := by
  induction n generalizing s with
  | zero => rw [total_zero hs, hone]
  | succ n ih =>
    obtain ⟨u, hu, hround⟩ := BitTorrent.fault_bind_ok.mp hs
    by_cases hit : u.iterator = none
    · rw [round_of_none hit] at hround
      rw [← Except.ok.inj hround, ih hu]
    · have hstep : Round callback l u s := ⟨n, hu, hit, hround⟩
      rw [total_round hspares hstays hstep, ih hu]
      split_ifs with hend
      · rfl
      · rw [List.count_eq_zero.mpr (hnever u s hstep hend)]

theorem ahead_round_lt (hspares : SparesNext callback l) (h : Round callback l s s')
    (honly : ∀ a ∈ callback s'.calls, ∃ handle, a = .unsubscribe handle) :
    (s'.subscribers.ahead s'.iterator).length < (s.subscribers.ahead s.iterator).length := by
  obtain ⟨n, -, hit, hround⟩ := id h
  obtain ⟨k, y, rest, hk, hahead, -, hnext, hsubscribers⟩ := round_cases hit hround
  obtain ⟨hrest, hvalid⟩ := Nodes.ahead_next hahead
  rw [← hnext] at hrest hvalid
  have hle := ahead_length_acts hvalid (hspares s s' h) honly
  rw [hrest] at hle
  rw [hsubscribers, hk, hahead]
  exact Nat.lt_succ_of_le hle

theorem ends_of_spares (hspares : SparesNext callback l)
    (honly : ∀ calls, ∀ a ∈ callback calls, ∃ handle, a = .unsubscribe handle) :
    ∃ n s, rounds callback l n = .ok s ∧ s.iterator = none := by
  have hloop : ∀ d n s, rounds callback l n = .ok s →
      (s.subscribers.ahead s.iterator).length = d →
        ∃ n s, rounds callback l n = .ok s ∧ s.iterator = none := by
    intro d
    induction d using Nat.strong_induction_on with
    | _ d ih =>
      intro n s hs hd
      by_cases hit : s.iterator = none
      · exact ⟨n, s, hs, hit⟩
      · obtain ⟨s', hs', -⟩ := valid_of_spares hspares (n + 1)
        have hround := hs'
        rw [rounds_succ hs] at hround
        have hlt := ahead_round_lt hspares ⟨n, hs, hit, hround⟩ (honly _)
        exact ih _ (hd ▸ hlt) (n + 1) s' hs' rfl
  exact hloop _ 0 _ rfl rfl

theorem listed_of_round (h : Round callback l s s') :
    ∃ x ∈ s.subscribers.values, s'.calls = s.calls ++ [x] := by
  obtain ⟨n, -, hit, hround⟩ := h
  obtain ⟨k, x, rest, -, hahead, hcalls, -⟩ := round_cases hit hround
  have hmem : (k, x) ∈ s.subscribers.ahead (some k) := by
    rw [hahead]
    exact List.mem_cons_self
  exact ⟨x, List.mem_map_of_mem (Nodes.mem_of_mem_ahead hmem), hcalls⟩

theorem once_of_listedOnce (hspares : SparesNext callback l) (honce : ListedOnce callback l)
    (hx : x ∈ l.values) (hstays : Stays callback l x) :
    ∃ N, ∀ n, N ≤ n → ∀ s, rounds callback l n = .ok s → s.calls.count x = 1 := by
  obtain ⟨hone, hnever⟩ := honce x hx hstays
  obtain ⟨m, t, -, ht, hcalled⟩ := eventually_called hspares hstays rounds_zero
    (total_eq_one hspares hstays hone hnever rounds_zero).ge
  refine ⟨m, fun n hn s hs => le_antisymm ?_ (hcalled.trans (count_mono ht hn hs))⟩
  rw [← total_eq_one hspares hstays hone hnever hs]
  exact Nat.le_add_right _ _

/-- If a staying subscriber is called once, it has no two nodes at any time. -/
theorem total_le_one (hspares : SparesNext callback l) (hstays : Stays callback l x)
    (honce : ∃ N, ∀ n, N ≤ n → ∀ s, rounds callback l n = .ok s → s.calls.count x = 1)
    (hs : rounds callback l n = .ok s) : total x s ≤ 1 := by
  obtain ⟨N, honce⟩ := honce
  obtain ⟨m, t, -, ht, hle⟩ := eventually_called hspares hstays hs le_rfl
  obtain ⟨u, hu, -⟩ := valid_of_spares hspares (max m N)
  calc total x s ≤ t.calls.count x := hle
    _ ≤ u.calls.count x := count_mono ht (le_max_left m N) hu
    _ = 1 := honce _ (le_max_right m N) u hu

theorem listedOnce_of_once (hspares : SparesNext callback l)
    (honce : ∀ x ∈ l.values, Stays callback l x →
      ∃ N, ∀ n, N ≤ n → ∀ s, rounds callback l n = .ok s → s.calls.count x = 1) :
    ListedOnce callback l := by
  intro x hx hstays
  have hle {n : ℕ} {s : Loop σ} (hs : rounds callback l n = .ok s) :=
    total_le_one hspares hstays (honce x hx hstays) hs
  have hpos := List.count_pos_iff.mpr hx
  have hstart := hle rounds_zero
  rw [total_zero (@rounds_zero _ _ callback l)] at hstart
  refine ⟨le_antisymm hstart hpos, ?_⟩
  intro s s' hround hit hmem
  obtain ⟨n, hs, hne, hs'⟩ := id hround
  have hsome := total_mono hspares hstays rounds_zero (Nat.zero_le n) hs
  have hafter := hle ((rounds_succ hs).trans hs')
  rw [total_round hspares hstays hround, if_neg hit] at hafter
  rw [total_zero (@rounds_zero _ _ callback l)] at hsome
  have := List.count_pos_iff.mpr hmem
  omega

end Rounds

/-- A notification loop keeps its promises exactly if no callback unsubscribes the one that the loop
is about to call, and if those who stay are on the list once. -/
theorem notifies_iff (callbacks : Notification → Callback σ) (notification : Notification)
    (l : Nodes σ) :
    Notifies callbacks notification l ↔
      SparesNext (callbacks notification) l ∧ ListedOnce (callbacks notification) l := by
  constructor
  · intro h
    have hderefs := h.derefs
    have honce := h.once
    rw [loop_eq] at hderefs honce
    have hspares := spares_of_derefs hderefs
    exact ⟨hspares, listedOnce_of_once hspares honce⟩
  · rintro ⟨hspares, honce⟩
    constructor
    · rw [loop_eq]
      intro n
      obtain ⟨s, hs, -⟩ := valid_of_spares hspares n
      exact ⟨s, hs⟩
    · exact fun _ _ => listed_of_round
    · rw [loop_eq]
      exact ends_of_spares hspares
    · rw [loop_eq]
      exact fun x => once_of_listedOnce hspares honce

def firstUnsubscribes : Callback ℕ := fun calls =>
  if calls = [0] then [.unsubscribe (some 1)] else []

/-- The loop has moved on to the second subscriber before, and dereferences its node. -/
theorem not_notifies : ¬ ∀ notification,
    Notifies (fun _ => firstUnsubscribes) notification (.ofList [0, 1]) := by
  intro h
  obtain ⟨s, hs⟩ := (h .onConnect).derefs 2
  have hfault : onConnect (fun _ => firstUnsubscribes) (.ofList [0, 1]) 2 = .error .endIterator := rfl
  exact nomatch hs.symm.trans hfault

end ACENetwork.WLAN.Subscribers
