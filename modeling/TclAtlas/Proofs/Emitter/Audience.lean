import TclAtlas.Emitter
import TclAtlas.Ordered.Distinct
import Mathlib.Data.List.Nodup

/-!
# Proofs/Emitter/Audience — whom notices reach while subscriptions change

Listeners may do anything to the subscriptions when they are called, and what they do may depend on
all that has happened (`Chronicle.Conduct`).  What happens is written down in the order it happens
(`Chronicle`), calls and changes alike, whoever makes them.

By the record alone it can be said who is subscribed: whoever was subscribed and whose subscription
was not ended since (`Chronicle.standing`).  The emitter always agrees with it (`Chronicle.Sound`),
so a notice reaches those who stand when it is sent, and the next one finds all changes made
(`Chronicle.notices_reach_audience`).
-/

namespace TclAtlas

variable {L : Type u}

/-! ## What happens -/

/-- **A change to the subscriptions.** -/
inductive SubscriptionChange (L : Type u)
  | subscribe (l : L)
  | unsubscribe (id : SubscriptionId)

/-- **Something that happens** to an emitter, or that it does. -/
inductive Happening (L : Type u)
  | subscribed (id : SubscriptionId) (l : L)
  /-- A number was unsubscribed, and whether a listener was found under it. -/
  | unsubscribed (id : SubscriptionId) (found : Bool)
  | sent (notice : Notice)
  | called (id : SubscriptionId) (l : L) (notice : Notice)

namespace Happening

/-- The subscription that begins. -/
def begun? : Happening L → Option (SubscriptionId × L)
  | subscribed id l => some (id, l)
  | _ => none

/-- The number of the subscription that ends. -/
def ended? : Happening L → Option SubscriptionId
  | unsubscribed id true => some id
  | _ => none

/-- The call that is made. -/
def call? : Happening L → Option (SubscriptionId × L × Notice)
  | called id l notice => some (id, l, notice)
  | _ => none

end Happening

namespace Chronicle

/-- All subscriptions of a record, in order. -/
def begun (record : List (Happening L)) : List (SubscriptionId × L) :=
  record.filterMap Happening.begun?

/-- The numbers of all subscriptions that were ended. -/
def ended (record : List (Happening L)) : List SubscriptionId :=
  record.filterMap Happening.ended?

/-- **The subscriptions that stand** after what a record tells: those begun and not ended, in the
order in which they were begun. -/
def standing (record : List (Happening L)) : List (SubscriptionId × L) :=
  (begun record).filter fun (id, _) => id ∉ ended record

/-- The calls of a record, in order. -/
def calls (record : List (Happening L)) : List (SubscriptionId × L × Notice) :=
  record.filterMap Happening.call?

/-- **What listeners do** when they are called: the changes that the listener called last makes, by
all that has happened up to its call. -/
def Conduct (L : Type u) : Type u := List (Happening L) → List (SubscriptionChange L)

end Chronicle

/-! ## Chronicles -/

/-- **An emitter with the record** of all that has happened. -/
structure Chronicle (L : Type u) where
  record : List (Happening L)
  emitter : Emitter L

namespace Chronicle

/-- The emitter without listeners, to which nothing has happened. -/
def start : Chronicle L := ⟨[], .silent⟩

/-- The chronicle with one more thing written down. -/
def note (c : Chronicle L) (h : Happening L) : Chronicle L := { c with record := c.record ++ [h] }

/-- **Make a change**, and write down what comes of it. -/
def change (c : Chronicle L) : SubscriptionChange L → Chronicle L
  | .subscribe l =>
    let (id, e) := c.emitter.subscribe l
    { c with emitter := e }.note (.subscribed id l)
  | .unsubscribe id =>
    let (found, e) := c.emitter.unsubscribe id
    { c with emitter := e }.note (.unsubscribed id found)

section

variable (c : Chronicle L) (h : Happening L) (l : L) (id : SubscriptionId)

@[simp] theorem record_note : (c.note h).record = c.record ++ [h] := rfl

@[simp] theorem emitter_note : (c.note h).emitter = c.emitter := rfl

@[simp] theorem record_subscribe :
    (c.change (.subscribe l)).record = c.record ++ [.subscribed ⟨c.emitter.nextNumber⟩ l] := rfl

@[simp] theorem listeners_subscribe : (c.change (.subscribe l)).emitter.listeners =
    c.emitter.listeners ++ [(⟨c.emitter.nextNumber⟩, l)] := rfl

@[simp] theorem nextNumber_subscribe :
    (c.change (.subscribe l)).emitter.nextNumber = c.emitter.nextNumber + 1 := rfl

@[simp] theorem record_unsubscribe : (c.change (.unsubscribe id)).record =
    c.record ++ [.unsubscribed id (c.emitter.isSubscribed id)] := rfl

@[simp] theorem listeners_unsubscribe : (c.change (.unsubscribe id)).emitter.listeners =
    c.emitter.listeners.filter fun (i, _) => i ≠ id := by
  simp [change, Emitter.unsubscribe, bne, Bool.beq_eq_decide_eq]

@[simp] theorem nextNumber_unsubscribe :
    (c.change (.unsubscribe id)).emitter.nextNumber = c.emitter.nextNumber := rfl

end

/-- **Call a listener**, which makes its changes one after the other. -/
def call (conduct : Conduct L) (notice : Notice) (id : SubscriptionId) (l : L)
    (c : Chronicle L) : Chronicle L :=
  let c := c.note (.called id l notice)
  (conduct c.record).foldl change c

/-- **Send a notice.** -/
def send (conduct : Conduct L) (notice : Notice) (c : Chronicle L) : Chronicle L :=
  c.emitter.send (call conduct notice) (c.note (.sent notice))

/-- **What is done to an emitter** from outside. -/
inductive Action (L : Type u)
  | change (change : SubscriptionChange L)
  | send (notice : Notice)

/-- The chronicle after an action. -/
def perform (conduct : Conduct L) (c : Chronicle L) : Action L → Chronicle L
  | .change change => c.change change
  | .send notice => c.send conduct notice

/-- **The chronicle of a run** of actions. -/
def run (conduct : Conduct L) (actions : List (Action L)) : Chronicle L :=
  actions.foldl (perform conduct) start

/-! ## Who stands after one more thing -/

variable {record : List (Happening L)} {id : SubscriptionId}

@[simp] theorem begun_concat (record : List (Happening L)) (h : Happening L) :
    begun (record ++ [h]) = begun record ++ h.begun?.toList := by
  rw [begun, List.filterMap_append, ← begun]
  cases hh : h.begun? <;> simp [hh]

@[simp] theorem ended_concat (record : List (Happening L)) (h : Happening L) :
    ended (record ++ [h]) = ended record ++ h.ended?.toList := by
  rw [ended, List.filterMap_append, ← ended]
  cases hh : h.ended? <;> simp [hh]

theorem not_mem_ended_of_standing (h : id ∈ (standing record).map Prod.fst) :
    id ∉ ended record := by
  obtain ⟨p, hp, rfl⟩ := List.mem_map.mp h
  simpa using (List.mem_filter.mp hp).2

theorem mem_begun_of_standing (h : id ∈ (standing record).map Prod.fst) :
    id ∈ (begun record).map Prod.fst :=
  (List.filter_sublist.map Prod.fst).subset h

/-- What neither begins nor ends a subscription leaves those that stand. -/
theorem standing_concat_of_none {h : Happening L} (hbegun : h.begun? = none)
    (hended : h.ended? = none) : standing (record ++ [h]) = standing record := by
  simp [standing, hbegun, hended]

/-- **A new subscription** comes last, if its number was never ended. -/
theorem standing_concat_subscribed (hid : id ∉ ended record) (l : L) :
    standing (record ++ [.subscribed id l]) = standing record ++ [(id, l)] := by
  simp [standing, Happening.begun?, Happening.ended?, List.filter_append, hid]

/-- **A number that is unsubscribed** is taken out from among the others, where it is found. -/
theorem standing_concat_unsubscribed {found : Bool}
    (hfound : found = true ↔ id ∈ (standing record).map Prod.fst) :
    standing (record ++ [.unsubscribed id found]) =
      (standing record).filter fun (i, _) => i ≠ id := by
  cases found with
  | false =>
    rw [standing_concat_of_none rfl rfl, List.filter_eq_self.mpr]
    intro p hp
    have hid : id ∉ (standing record).map Prod.fst := fun h => absurd (hfound.mpr h) (by simp)
    simpa using fun heq : p.1 = id => hid (heq ▸ List.mem_map_of_mem hp)
  | true => simp [standing, Happening.begun?, Happening.ended?, List.filter_filter, and_comm]

/-- **The replies are true**: a number is found when it is unsubscribed just if its subscription
stands. -/
def RepliesTrue (record : List (Happening L)) : Prop :=
  ∀ before id found, before ++ [.unsubscribed id found] <+: record →
    (found = true ↔ id ∈ (standing before).map Prod.fst)

theorem RepliesTrue.concat (hrecord : RepliesTrue record) {h : Happening L}
    (hreply : ∀ id found, h = .unsubscribed id found →
      (found = true ↔ id ∈ (standing record).map Prod.fst)) : RepliesTrue (record ++ [h]) := by
  intro before id found hprefix
  rcases List.prefix_concat_iff.mp hprefix with heq | hold
  · obtain ⟨rfl, hlast⟩ := List.append_inj' heq rfl
    exact hreply id found (List.cons.inj hlast).1.symm
  · exact hrecord before id found hold

/-! ## Emitters agree with their records -/

/-- **An emitter agrees with its record.** -/
structure Sound (c : Chronicle L) : Prop where
  listeners : c.emitter.listeners = standing c.record
  /-- Numbers are given out in order, each of them once. -/
  numbers : ((begun c.record).map Prod.fst).map SubscriptionId.number =
    List.range c.emitter.nextNumber
  lt_of_mem_ended : ∀ id ∈ ended c.record, id.number < c.emitter.nextNumber
  nodup_ended : (ended c.record).Nodup
  repliesTrue : RepliesTrue c.record

theorem sound_start : (start : Chronicle L).Sound where
  listeners := rfl
  numbers := rfl
  lt_of_mem_ended _ h := absurd h List.not_mem_nil
  nodup_ended := List.nodup_nil
  repliesTrue _ _ _ h := absurd (List.prefix_nil.mp h) (by simp)

namespace Sound

variable {c : Chronicle L}

/-- The numbers of all subscriptions are different. -/
theorem nodup_begun (hc : c.Sound) : ((begun c.record).map Prod.fst).Nodup :=
  List.Nodup.of_map SubscriptionId.number (hc.numbers ▸ List.nodup_range)

/-- **The listeners subscribed have different numbers.** -/
theorem nodup_audience (hc : c.Sound) : c.emitter.audience.Nodup := by
  rw [Emitter.audience, hc.listeners]
  exact hc.nodup_begun.sublist (List.filter_sublist.map Prod.fst)

theorem lt_of_standing (hc : c.Sound) (h : id ∈ (standing c.record).map Prod.fst) :
    id.number < c.emitter.nextNumber := by
  rw [← List.mem_range, ← hc.numbers]
  exact List.mem_map_of_mem (mem_begun_of_standing h)

/-- **A number is found** when its subscription stands. -/
theorem isSubscribed_iff (hc : c.Sound) (id : SubscriptionId) :
    c.emitter.isSubscribed id = true ↔ id ∈ (standing c.record).map Prod.fst := by
  rw [Emitter.isSubscribed, hc.listeners]
  simp

/-- **What is no change** keeps an emitter in agreement. -/
theorem note (hc : c.Sound) {h : Happening L} (hbegun : h.begun? = none) (hended : h.ended? = none)
    (hreply : ∀ id found, h ≠ .unsubscribed id found) : (c.note h).Sound where
  listeners := hc.listeners.trans (standing_concat_of_none hbegun hended).symm
  numbers := by simpa [hbegun] using hc.numbers
  lt_of_mem_ended := by simpa [hended] using hc.lt_of_mem_ended
  nodup_ended := by simpa [hended] using hc.nodup_ended
  repliesTrue := hc.repliesTrue.concat fun id found heq => absurd heq (hreply id found)

/-- **A listener that subscribes** comes last, under a number that was never used. -/
theorem subscribe (hc : c.Sound) (l : L) : (c.change (.subscribe l)).Sound where
  listeners := by
    have hnew : (⟨c.emitter.nextNumber⟩ : SubscriptionId) ∉ ended c.record := fun h =>
      absurd (hc.lt_of_mem_ended _ h) (Nat.lt_irrefl _)
    rw [listeners_subscribe, record_subscribe, standing_concat_subscribed hnew, hc.listeners]
  numbers := by simp [Happening.begun?, hc.numbers, List.range_succ]
  lt_of_mem_ended id hid := by
    refine Nat.lt_succ_of_lt (hc.lt_of_mem_ended id ?_)
    simpa [Happening.ended?] using hid
  nodup_ended := by simpa [Happening.ended?] using hc.nodup_ended
  repliesTrue := hc.repliesTrue.concat fun id found heq => absurd heq (by simp)

/-- **A number that is unsubscribed** is gone, and the other listeners stay. -/
theorem unsubscribe (hc : c.Sound) (id : SubscriptionId) :
    (c.change (.unsubscribe id)).Sound := by
  have hfound := hc.isSubscribed_iff id
  have hended : ended (c.change (.unsubscribe id)).record =
      ended c.record ++ if c.emitter.isSubscribed id then [id] else [] := by
    cases h : c.emitter.isSubscribed id <;> simp [Happening.ended?, h]
  refine ⟨?_, ?_, ?_, ?_, ?_⟩
  · rw [listeners_unsubscribe, record_unsubscribe, standing_concat_unsubscribed hfound,
      hc.listeners]
  · simpa [Happening.begun?] using hc.numbers
  · intro i hi
    rw [hended, List.mem_append] at hi
    rcases hi with hi | hi
    · exact hc.lt_of_mem_ended i hi
    · split at hi
      · next h =>
        obtain rfl := List.mem_singleton.mp hi
        exact hc.lt_of_standing (hfound.mp h)
      · exact absurd hi List.not_mem_nil
  · rw [hended]
    split
    · next h =>
      exact Distinct.nodup_append_singleton hc.nodup_ended
        (not_mem_ended_of_standing (hfound.mp h))
    · simpa using hc.nodup_ended
  · refine hc.repliesTrue.concat fun i found heq => ?_
    obtain ⟨rfl, rfl⟩ := Happening.unsubscribed.inj heq
    exact hfound

theorem change (hc : c.Sound) : ∀ change : SubscriptionChange L, (c.change change).Sound
  | .subscribe l => hc.subscribe l
  | .unsubscribe id => hc.unsubscribe id

theorem call (hc : c.Sound) (conduct : Conduct L) (notice : Notice) (id : SubscriptionId) (l : L) :
    (c.call conduct notice id l).Sound :=
  List.foldlRecOn _ _ (hc.note rfl rfl (by simp)) fun _ h change _ => h.change change

theorem send (hc : c.Sound) (conduct : Conduct L) (notice : Notice) :
    (c.send conduct notice).Sound :=
  List.foldlRecOn _ _ (hc.note rfl rfl (by simp)) fun _ h p _ => h.call conduct notice p.1 p.2

end Sound

/-- **After any run an emitter agrees with its record**, whatever listeners do. -/
theorem sound_run (conduct : Conduct L) (actions : List (Action L)) :
    (run conduct actions).Sound := by
  refine List.foldlRecOn actions _ sound_start fun c hc action _ => ?_
  cases action with
  | change change => exact hc.change change
  | send notice => exact hc.send conduct notice

/-! ## The calls of a notice -/

/-- **From one chronicle to another** the given calls are made. -/
def Makes (c c' : Chronicle L) (made : List (SubscriptionId × L × Notice)) : Prop :=
  ∃ since, c'.record = c.record ++ since ∧ calls since = made

namespace Makes

variable {c c' c'' : Chronicle L} {made made' : List (SubscriptionId × L × Notice)}

theorem refl (c : Chronicle L) : c.Makes c [] := ⟨[], by simp, rfl⟩

theorem trans (h : c.Makes c' made) (h' : c'.Makes c'' made') : c.Makes c'' (made ++ made') := by
  obtain ⟨since, hrecord, rfl⟩ := h
  obtain ⟨since', hrecord', rfl⟩ := h'
  refine ⟨since ++ since', ?_, List.filterMap_append⟩
  rw [hrecord', hrecord, List.append_assoc]

theorem note (c : Chronicle L) (h : Happening L) : c.Makes (c.note h) h.call?.toList := by
  refine ⟨[h], rfl, ?_⟩
  rw [calls]
  cases hh : h.call? <;> simp [hh]

theorem change (c : Chronicle L) : ∀ change : SubscriptionChange L, c.Makes (c.change change) []
  | .subscribe _ => ⟨_, record_subscribe .., rfl⟩
  | .unsubscribe _ => ⟨_, record_unsubscribe .., rfl⟩

/-- No call is made by changes. -/
theorem changes : ∀ (changes : List (SubscriptionChange L)) (c : Chronicle L),
    c.Makes (changes.foldl Chronicle.change c) []
  | [], c => refl c
  | first :: rest, c => (change c first).trans (changes rest _)

theorem call (c : Chronicle L) (conduct : Conduct L) (notice : Notice) (id : SubscriptionId)
    (l : L) : c.Makes (c.call conduct notice id l) [(id, l, notice)] :=
  (note c (.called id l notice)).trans (changes _ _)

/-- **Each of the listeners is called**, one after the other. -/
theorem foldl_call (conduct : Conduct L) (notice : Notice) :
    ∀ (listeners : List (SubscriptionId × L)) (c : Chronicle L),
      c.Makes (listeners.foldl (fun c (id, l) => c.call conduct notice id l) c)
        (listeners.map fun (id, l) => (id, l, notice))
  | [], c => refl c
  | (id, l) :: rest, c => (call c conduct notice id l).trans (foldl_call conduct notice rest _)

end Makes

/-! ## Audiences -/

/-- **Every notice reaches exactly its audience**, whatever listeners do to the subscriptions when
they are called, and after any run.  An emitter's listeners are those whose subscriptions stand by
the record of all changes made, in the order of their subscriptions.  The listeners called by a
notice are those subscribed when it is sent, each once and in their order, and the changes that they
make count from the next notice on.  Numbers of subscriptions are given out in order, so none is
given twice.  A number is found when it is unsubscribed just if its subscription stands, hence once
at most, and of those that stand only this one is taken out. -/
theorem notices_reach_audience (conduct : Conduct L) (actions : List (Action L)) :
    let c := run conduct actions
    (∀ notice, ∃ since,
      (c.send conduct notice).record = c.record ++ .sent notice :: since ∧
      calls since = c.emitter.listeners.map (fun (id, l) => (id, l, notice)) ∧
      c.emitter.audience.Nodup ∧
      (c.send conduct notice).emitter.listeners = standing (c.record ++ .sent notice :: since)) ∧
    c.emitter.listeners = standing c.record ∧
    (begun c.record).map (·.1.number) = List.range (begun c.record).length ∧
    (ended c.record).Nodup ∧
    ∀ before id found, before ++ [.unsubscribed id found] <+: c.record →
      (found = true ↔ id ∈ (standing before).map Prod.fst) ∧
      standing (before ++ [.unsubscribed id found]) =
        (standing before).filter fun (i, _) => i ≠ id := by
  intro c
  have hc : c.Sound := sound_run conduct actions
  refine ⟨fun notice => ?_, hc.listeners, ?_, hc.nodup_ended, fun before id found hprefix => ?_⟩
  · obtain ⟨since, hrecord, hcalls⟩ :=
      Makes.foldl_call conduct notice c.emitter.listeners (c.note (.sent notice))
    have hsent : (c.send conduct notice).record = c.record ++ .sent notice :: since := by
      rw [send, Emitter.send]
      simpa using hrecord
    exact ⟨since, hsent, hcalls, hc.nodup_audience, hsent ▸ (hc.send conduct notice).listeners⟩
  · have hlength := congrArg List.length hc.numbers
    simp only [List.length_map, List.length_range] at hlength
    rw [hlength, ← hc.numbers, List.map_map]
    rfl
  · have hfound := hc.repliesTrue before id found hprefix
    exact ⟨hfound, standing_concat_unsubscribed hfound⟩

/-- A listener that takes out itself and the one after it, and subscribes a new one. -/
theorem notices_reach_audience_taken_out :
    let conduct : Conduct Nat := fun record =>
      match record.getLast? with
      | some (.called ⟨0⟩ _ _) => [.unsubscribe ⟨0⟩, .unsubscribe ⟨1⟩, .subscribe 23]
      | _ => []
    let notice : Notice := ⟨[⟨3⟩], false⟩
    let c := run conduct ([20, 21, 22].map fun l => .change (.subscribe l))
    (∃ since, (c.send conduct notice).record = c.record ++ .sent notice :: since ∧
      calls since = [(⟨0⟩, 20, notice), (⟨1⟩, 21, notice), (⟨2⟩, 22, notice)]) ∧
    (c.send conduct notice).emitter.listeners = [(⟨2⟩, 22), (⟨3⟩, 23)] := by
  intro conduct notice c
  obtain ⟨hnotices, -⟩ := notices_reach_audience conduct ([20, 21, 22].map fun l =>
    .change (.subscribe l))
  obtain ⟨since, hrecord, hcalls, -⟩ := hnotices notice
  exact ⟨⟨since, hrecord, hcalls⟩, rfl⟩

end Chronicle

end TclAtlas
