import MapReduce.Worker.Rpcs

/-!
# The life of a call object

A call object registers two operations with the completion queue, one after the other: the wait for
a request, and the `Finish` that sends the reply. `CallQueue` is the loop of a worker together with
the operations that are registered and not yet delivered, the calls of `Finish` and the deletions.
An event is the delivery of a registered operation, with `ok` true.

Every object goes through the stages of `Stage`, and its stage fixes what is registered for it and
how often it was answered and deleted (`Lives`). Read `answered_once` first.
-/

namespace MapReduce

/-- What an operation waits for. -/
inductive OpKind where
  | request
  | finish
  deriving DecidableEq, Repr

/-- An operation of the completion queue, with the address of its object as the tag. -/
structure Operation where
  tag : Nat
  kind : OpKind
  deriving DecidableEq, Repr

/-- The loop of a worker, the operations that are registered and not yet delivered, and the objects
that called `Finish` and that were deleted. -/
structure CallQueue where
  loop : RpcLoop
  registered : List Operation
  finished : List Nat
  deleted : List Nat

namespace CallQueue

/-- `new` of a call object: `WaitForRequest` registers the object. -/
def construct (s : CallQueue) (kind : CallKind) : CallQueue :=
  { s with
    loop := s.loop.construct kind
    registered := s.registered ++ [⟨s.loop.next, .request⟩] }

/-- `handleRpcs` before its loop. -/
def start : CallQueue :=
  let s : CallQueue := ⟨⟨fun _ => none, 0, false⟩, [], [], []⟩
  let s := s.construct .exchangeInfo
  let s := s.construct .ping
  let s := s.construct .mapTask
  s.construct .reduceTask

/-- An object changes, or is deleted. -/
def setObject (s : CallQueue) (tag : Nat) (call : Option CallData) : CallQueue :=
  { s with loop := { s.loop with objects := Function.update s.loop.objects tag call } }

/-- `Proceed` of the object at an address. -/
def proceed (s : CallQueue) (tag : Nat) : Option CallQueue := do
  let call ← s.loop.objects tag
  match call.status with
  | .create =>
      let s := s.setObject tag (some { call with status := .process })
      some { s with registered := s.registered ++ [⟨tag, .request⟩] }
  | .process =>
      let s := s.construct call.kind
      let s := s.setObject tag (some { call with status := .finish })
      some { s with
        registered := s.registered ++ [⟨tag, .finish⟩]
        finished := s.finished ++ [tag] }
  | .finish =>
      let s := s.setObject tag none
      some { s with deleted := s.deleted ++ [tag] }

/-- One pass of the loop: a registered operation is delivered. -/
def deliver (s : CallQueue) (op : Operation) : Option CallQueue :=
  if op ∈ s.registered then
    let s := { s with registered := s.registered.erase op }
    s.proceed op.tag
  else none

/-- A delivery is a pass of the loop of the worker. -/
theorem deliver_loop {s t : CallQueue} {op : Operation} (hrunning : s.loop.returned = false)
    (h : s.deliver op = some t) : s.loop.step ⟨op.tag, true⟩ = some t.loop := by
  unfold deliver at h
  split at h
  · obtain ⟨call, hcall, h⟩ := Option.bind_eq_some_iff.mp h
    have hcall : s.loop.objects op.tag = some call := hcall
    rw [RpcLoop.step, if_neg (by simp [hrunning, hcall]), if_neg (by simp), RpcLoop.proceed, hcall]
    obtain ⟨kind, status⟩ := call
    cases status <;> cases h <;> rfl
  · cases h

/-! ## Stages -/

/-- The stages of a call object. -/
inductive Stage where
  | unborn
  | waiting (kind : CallKind)
  | replying (kind : CallKind)
  | gone
  deriving DecidableEq

/-- The object at an address, how often each of its operations is registered and was delivered, and
how often it called `Finish` and was deleted. -/
structure Profile where
  object : Option CallData
  registeredRequest : Nat
  registeredFinish : Nat
  deliveredRequest : Nat
  deliveredFinish : Nat
  finished : Nat
  deleted : Nat

/-- The profile of an address after the deliveries `ops`. -/
def profile (ops : List Operation) (s : CallQueue) (tag : Nat) : Profile where
  object := s.loop.objects tag
  registeredRequest := s.registered.count ⟨tag, .request⟩
  registeredFinish := s.registered.count ⟨tag, .finish⟩
  deliveredRequest := ops.count ⟨tag, .request⟩
  deliveredFinish := ops.count ⟨tag, .finish⟩
  finished := s.finished.count tag
  deleted := s.deleted.count tag

/-- The profile of a stage. -/
def Stage.profile : Stage → Profile
  | .unborn => ⟨none, 0, 0, 0, 0, 0, 0⟩
  | .waiting kind => ⟨some ⟨kind, .process⟩, 1, 0, 0, 0, 0, 0⟩
  | .replying kind => ⟨some ⟨kind, .finish⟩, 0, 1, 1, 0, 1, 0⟩
  | .gone => ⟨none, 0, 0, 1, 1, 1, 1⟩

/-- `Lives ops s life`: after the deliveries `ops`, each object is in its stage of `life`, the
addresses in use are those below the next free one, and one object of each kind waits. -/
structure Lives (ops : List Operation) (s : CallQueue) (life : Nat → Stage) : Prop where
  profile : ∀ tag, s.profile ops tag = (life tag).profile
  born : ∀ tag, life tag = .unborn ↔ s.loop.next ≤ tag
  waiting : ∀ kind, ∃! tag, life tag = .waiting kind

/-- The stages before the loop. -/
def startLife : Nat → Stage
  | 0 => .waiting .exchangeInfo
  | 1 => .waiting .ping
  | 2 => .waiting .mapTask
  | 3 => .waiting .reduceTask
  | _ + 4 => .unborn

/-- The address of the object that waits for calls of a kind before the loop. -/
def startTag : CallKind → Nat
  | .exchangeInfo => 0
  | .ping => 1
  | .mapTask => 2
  | .reduceTask => 3

/-- Before the loop one object waits for each kind of call. -/
theorem start_life_waiting_iff (tag : Nat) (kind : CallKind) :
    startLife tag = .waiting kind ↔ tag = startTag kind := by
  constructor
  · intro htag
    rcases tag with _ | _ | _ | _ | tag
    · cases htag; rfl
    · cases htag; rfl
    · cases htag; rfl
    · cases htag; rfl
    · cases htag
  · intro htag
    subst htag
    cases kind <;> rfl

/-- The four objects wait before the loop. -/
theorem start_lives : Lives [] start startLife := by
  refine ⟨fun tag => ?_, fun tag => ?_, fun kind => ?_⟩
  · rcases tag with _ | _ | _ | _ | tag
    · rfl
    · rfl
    · rfl
    · rfl
    · simp [CallQueue.profile, Stage.profile, startLife, start, construct, RpcLoop.construct]
  · rcases tag with _ | _ | _ | _ | tag <;>
      simp [startLife, start, construct, RpcLoop.construct]
  · refine ⟨startTag kind, (start_life_waiting_iff _ kind).mpr rfl, fun tag htag => ?_⟩
    exact (start_life_waiting_iff tag kind).mp htag

section Reading

variable {ops : List Operation} {s : CallQueue} {life : Nat → Stage} (h : Lives ops s life)
include h

/-- The object at an address is that of its stage. -/
theorem Lives.object_eq (tag : Nat) : s.loop.objects tag = (life tag).profile.object :=
  congrArg Profile.object (h.profile tag)

/-- The operations that are registered for an object. -/
theorem Lives.registered_eq (tag : Nat) :
    s.registered.count ⟨tag, .request⟩ = (life tag).profile.registeredRequest ∧
      s.registered.count ⟨tag, .finish⟩ = (life tag).profile.registeredFinish :=
  ⟨congrArg Profile.registeredRequest (h.profile tag),
    congrArg Profile.registeredFinish (h.profile tag)⟩

/-- The events of an object. -/
theorem Lives.delivered_eq (tag : Nat) :
    ops.count ⟨tag, .request⟩ = (life tag).profile.deliveredRequest ∧
      ops.count ⟨tag, .finish⟩ = (life tag).profile.deliveredFinish :=
  ⟨congrArg Profile.deliveredRequest (h.profile tag),
    congrArg Profile.deliveredFinish (h.profile tag)⟩

/-- The objects that wait for a request. -/
theorem Lives.waiting_iff {tag : Nat} {kind : CallKind} :
    s.loop.objects tag = some ⟨kind, .process⟩ ↔ life tag = .waiting kind := by
  rw [h.object_eq]
  cases life tag with
  | waiting kind' => simp [Stage.profile]
  | unborn | replying | gone => simp [Stage.profile]

/-- The objects that wait for their `Finish` event. -/
theorem Lives.replying_iff {tag : Nat} {kind : CallKind} :
    s.loop.objects tag = some ⟨kind, .finish⟩ ↔ life tag = .replying kind := by
  rw [h.object_eq]
  cases life tag with
  | replying kind' => simp [Stage.profile]
  | unborn | waiting | gone => simp [Stage.profile]

end Reading

/-- The stage of an object fixes what it may receive. -/
theorem Lives.stage {ops : List Operation} {s : CallQueue} {life : Nat → Stage}
    (h : Lives ops s life) {op : Operation} (hop : op ∈ s.registered) :
    (∃ kind, op.kind = .request ∧ life op.tag = .waiting kind) ∨
      ∃ kind, op.kind = .finish ∧ life op.tag = .replying kind := by
  have hcount : 0 < s.registered.count op := List.count_pos_iff.mpr hop
  obtain ⟨tag, opKind⟩ := op
  obtain ⟨hrequest, hfinish⟩ := h.registered_eq tag
  cases opKind with
  | request =>
      rw [hrequest] at hcount
      cases hlife : life tag with
      | waiting kind => exact .inl ⟨kind, rfl, rfl⟩
      | unborn | replying | gone => simp [hlife, Stage.profile] at hcount
  | finish =>
      rw [hfinish] at hcount
      cases hlife : life tag with
      | replying kind => exact .inr ⟨kind, rfl, rfl⟩
      | unborn | waiting | gone => simp [hlife, Stage.profile] at hcount

/-- A request arrives: the object creates the next one of its kind and sends the reply. -/
theorem deliver_request {s : CallQueue} {tag : Nat} {kind : CallKind}
    (hop : ⟨tag, .request⟩ ∈ s.registered) (hobject : s.loop.objects tag = some ⟨kind, .process⟩) :
    s.deliver ⟨tag, .request⟩ = some
      { loop := { s.loop with
          objects := Function.update (Function.update s.loop.objects s.loop.next
            (some ⟨kind, .process⟩)) tag (some ⟨kind, .finish⟩)
          next := s.loop.next + 1 }
        registered := s.registered.erase ⟨tag, .request⟩ ++ [⟨s.loop.next, .request⟩] ++
          [⟨tag, .finish⟩]
        finished := s.finished ++ [tag]
        deleted := s.deleted } := by
  unfold deliver proceed
  rw [if_pos hop]
  dsimp only
  rw [hobject]
  rfl

/-- The reply is confirmed: the object is deleted. -/
theorem deliver_finish {s : CallQueue} {tag : Nat} {kind : CallKind}
    (hop : ⟨tag, .finish⟩ ∈ s.registered) (hobject : s.loop.objects tag = some ⟨kind, .finish⟩) :
    s.deliver ⟨tag, .finish⟩ = some
      { loop := { s.loop with objects := Function.update s.loop.objects tag none }
        registered := s.registered.erase ⟨tag, .finish⟩
        finished := s.finished
        deleted := s.deleted ++ [tag] } := by
  unfold deliver proceed
  rw [if_pos hop]
  dsimp only
  rw [hobject]
  rfl

/-- The profiles after a request arrived. -/
theorem profile_request {ops : List Operation} {s t : CallQueue} {tag : Nat} {kind : CallKind}
    (hop : ⟨tag, .request⟩ ∈ s.registered) (hobject : s.loop.objects tag = some ⟨kind, .process⟩)
    (hnew : tag ≠ s.loop.next) (h : s.deliver ⟨tag, .request⟩ = some t) (tag' : Nat) :
    t.profile (ops ++ [⟨tag, .request⟩]) tag' =
      let p := s.profile ops tag'
      if tag' = tag then
        { p with
          object := some ⟨kind, .finish⟩
          registeredRequest := p.registeredRequest - 1
          registeredFinish := p.registeredFinish + 1
          deliveredRequest := p.deliveredRequest + 1
          finished := p.finished + 1 }
      else if tag' = s.loop.next then
        { p with
          object := some ⟨kind, .process⟩
          registeredRequest := p.registeredRequest + 1 }
      else p := by
  rw [deliver_request hop hobject, Option.some.injEq] at h
  subst h
  by_cases htag : tag' = tag
  · subst htag
    simp [CallQueue.profile, hnew.symm]
  · have herase : ∀ opKind, (⟨tag', opKind⟩ : Operation) ≠ ⟨tag, .request⟩ := by
      intro opKind heq
      exact htag (congrArg Operation.tag heq)
    by_cases hnext : tag' = s.loop.next
    · subst hnext
      simp [CallQueue.profile, htag, Ne.symm htag, List.count_erase_of_ne, herase]
    · simp [CallQueue.profile, htag, hnext, Ne.symm htag, Ne.symm hnext, List.count_erase_of_ne,
        herase]

/-- The profiles after a reply was confirmed. -/
theorem profile_finish {ops : List Operation} {s t : CallQueue} {tag : Nat} {kind : CallKind}
    (hop : ⟨tag, .finish⟩ ∈ s.registered) (hobject : s.loop.objects tag = some ⟨kind, .finish⟩)
    (h : s.deliver ⟨tag, .finish⟩ = some t) (tag' : Nat) :
    t.profile (ops ++ [⟨tag, .finish⟩]) tag' =
      let p := s.profile ops tag'
      if tag' = tag then
        { p with
          object := none
          registeredFinish := p.registeredFinish - 1
          deliveredFinish := p.deliveredFinish + 1
          deleted := p.deleted + 1 }
      else p := by
  rw [deliver_finish hop hobject, Option.some.injEq] at h
  subst h
  by_cases htag : tag' = tag
  · subst htag
    simp [CallQueue.profile]
  · have herase : ∀ opKind, (⟨tag', opKind⟩ : Operation) ≠ ⟨tag, .finish⟩ := by
      intro opKind heq
      exact htag (congrArg Operation.tag heq)
    simp [CallQueue.profile, htag, Ne.symm htag, List.count_erase_of_ne, herase]

/-- One object of each kind waits, also when the one of a kind goes on and a new one takes its
place. -/
theorem waiting_replaced {life : Nat → Stage} (h : ∀ kind, ∃! tag, life tag = .waiting kind)
    {tag new : Nat} {kind : CallKind} (hlife : life tag = .waiting kind)
    (hunborn : life new = .unborn) (kind' : CallKind) :
    ∃! tag', Function.update (Function.update life new (.waiting kind)) tag (.replying kind) tag' =
      .waiting kind' := by
  have hnew : new ≠ tag := by
    intro heq
    rw [heq, hlife] at hunborn
    cases hunborn
  have hiff : ∀ tag', Function.update (Function.update life new (.waiting kind)) tag
      (.replying kind) tag' = .waiting kind' ↔
      if kind' = kind then tag' = new else life tag' = .waiting kind' := by
    intro tag'
    by_cases htag : tag' = tag
    · rw [htag, Function.update_self]
      split
      · exact iff_of_false nofun hnew.symm
      · next hkind =>
          rw [hlife, Stage.waiting.injEq]
          exact iff_of_false nofun (Ne.symm hkind)
    · rw [Function.update_of_ne htag]
      by_cases hnext : tag' = new
      · rw [hnext, Function.update_self, Stage.waiting.injEq, hunborn]
        split
        · next hkind => exact iff_of_true hkind.symm rfl
        · next hkind => exact iff_of_false (Ne.symm hkind) nofun
      · rw [Function.update_of_ne hnext]
        split
        · next hkind =>
            refine iff_of_false ?_ hnext
            intro heq
            rw [hkind] at heq
            exact htag ((h kind).unique heq hlife)
        · rfl
  simp only [hiff]
  split
  · exact existsUnique_eq
  · exact h kind'

/-- A request moves its object on and brings a new one of the kind. -/
theorem Lives.request {ops : List Operation} {s : CallQueue} {life : Nat → Stage}
    (h : Lives ops s life) {tag : Nat} {kind : CallKind} (hop : ⟨tag, .request⟩ ∈ s.registered)
    (hlife : life tag = .waiting kind) :
    ∃ t, s.deliver ⟨tag, .request⟩ = some t ∧ Lives (ops ++ [⟨tag, .request⟩]) t
      (Function.update (Function.update life s.loop.next (.waiting kind)) tag
        (.replying kind)) := by
  have hobject : s.loop.objects tag = some ⟨kind, .process⟩ := h.waiting_iff.mpr hlife
  have hold : tag < s.loop.next := by
    by_contra hnew
    have hunborn := (h.born tag).mpr (Nat.not_lt.mp hnew)
    rw [hlife] at hunborn
    cases hunborn
  have hnew : tag ≠ s.loop.next := Nat.ne_of_lt hold
  have hunborn : life s.loop.next = .unborn := (h.born _).mpr (Nat.le_refl _)
  obtain ⟨t, ht⟩ : ∃ t, s.deliver ⟨tag, .request⟩ = some t := ⟨_, deliver_request hop hobject⟩
  have hnext : t.loop.next = s.loop.next + 1 := by
    rw [deliver_request hop hobject, Option.some.injEq] at ht
    rw [← ht]
  refine ⟨t, ht, fun tag' => ?_, fun tag' => ?_, fun kind' => ?_⟩
  · rw [profile_request hop hobject hnew ht, h.profile tag']
    by_cases htag : tag' = tag
    · subst htag
      simp [hlife, Stage.profile]
    · by_cases hnext' : tag' = s.loop.next
      · subst hnext'
        simp [htag, hunborn, Stage.profile]
      · simp [htag, hnext']
  · rw [hnext]
    by_cases htag : tag' = tag
    · subst htag
      rw [Function.update_self]
      exact iff_of_false nofun (by omega)
    · rw [Function.update_of_ne htag]
      by_cases hnext' : tag' = s.loop.next
      · subst hnext'
        rw [Function.update_self]
        exact iff_of_false nofun (by omega)
      · rw [Function.update_of_ne hnext', h.born]
        omega
  · exact waiting_replaced h.waiting hlife hunborn kind'

/-- A confirmed reply ends the life of its object. -/
theorem Lives.finish {ops : List Operation} {s : CallQueue} {life : Nat → Stage}
    (h : Lives ops s life) {tag : Nat} {kind : CallKind} (hop : ⟨tag, .finish⟩ ∈ s.registered)
    (hlife : life tag = .replying kind) :
    ∃ t, s.deliver ⟨tag, .finish⟩ = some t ∧ Lives (ops ++ [⟨tag, .finish⟩]) t
      (Function.update life tag .gone) := by
  have hobject : s.loop.objects tag = some ⟨kind, .finish⟩ := h.replying_iff.mpr hlife
  obtain ⟨t, ht⟩ : ∃ t, s.deliver ⟨tag, .finish⟩ = some t := ⟨_, deliver_finish hop hobject⟩
  have hnext : t.loop.next = s.loop.next := by
    rw [deliver_finish hop hobject, Option.some.injEq] at ht
    rw [← ht]
  -- no stage but that of the object changes, and it does not wait for a request
  have hother : ∀ stage, stage ≠ .gone → stage ≠ .replying kind → ∀ tag',
      Function.update life tag .gone tag' = stage ↔ life tag' = stage := by
    intro stage hgone hreplying tag'
    by_cases htag : tag' = tag
    · subst htag
      rw [Function.update_self, hlife]
      exact iff_of_false hgone.symm hreplying.symm
    · rw [Function.update_of_ne htag]
  refine ⟨t, ht, fun tag' => ?_, fun tag' => ?_, fun kind' => ?_⟩
  · rw [profile_finish hop hobject ht, h.profile tag']
    by_cases htag : tag' = tag
    · subst htag
      simp [hlife, Stage.profile]
    · simp [htag]
  · rw [hnext, hother .unborn nofun nofun, h.born]
  · obtain ⟨tag₀, htag₀, hunique⟩ := h.waiting kind'
    refine ⟨tag₀, (hother (.waiting kind') nofun nofun tag₀).mpr htag₀, fun tag' htag' => ?_⟩
    exact hunique tag' ((hother (.waiting kind') nofun nofun tag').mp htag')

/-- One delivery moves the stages on. -/
theorem Lives.deliver {ops : List Operation} {s : CallQueue} {life : Nat → Stage}
    (h : Lives ops s life) {op : Operation} (hop : op ∈ s.registered) :
    ∃ t life', s.deliver op = some t ∧ Lives (ops ++ [op]) t life' := by
  obtain ⟨tag, opKind⟩ := op
  rcases h.stage hop with ⟨kind, rfl, hlife⟩ | ⟨kind, rfl, hlife⟩
  · obtain ⟨t, ht, hlives⟩ := h.request hop hlife
    exact ⟨t, _, ht, hlives⟩
  · obtain ⟨t, ht, hlives⟩ := h.finish hop hlife
    exact ⟨t, _, ht, hlives⟩

/-- Every run goes through the stages. -/
theorem run_lives {ops : List Operation} {s : CallQueue}
    (hrun : Machine.run CallQueue.deliver start ops = some s) : ∃ life, Lives ops s life := by
  refine Machine.run_induction (motive := fun ops s => ∃ life, Lives ops s life)
    ⟨startLife, start_lives⟩ ?_ hrun
  intro ops m op t _ hm hstep
  obtain ⟨life, hlives⟩ := hm
  have hop : op ∈ m.registered := by
    by_contra hnot
    rw [CallQueue.deliver, if_neg hnot] at hstep
    cases hstep
  obtain ⟨t', life', ht', hlives'⟩ := hlives.deliver hop
  rw [hstep, Option.some.injEq] at ht'
  exact ⟨life', ht' ▸ hlives'⟩

/-- No operation is delivered twice. -/
theorem Lives.count_le_one {ops : List Operation} {s : CallQueue} {life : Nat → Stage}
    (h : Lives ops s life) (op : Operation) : ops.count op ≤ 1 := by
  obtain ⟨tag, opKind⟩ := op
  obtain ⟨hrequest, hfinish⟩ := h.delivered_eq tag
  cases opKind with
  | request =>
      rw [hrequest]
      cases life tag <;> simp [Stage.profile]
  | finish =>
      rw [hfinish]
      cases life tag <;> simp [Stage.profile]

/-- A deleted object is never the tag of a later event. -/
theorem Lives.gone_no_event {ops : List Operation} {s : CallQueue} {life : Nat → Stage}
    (h : Lives ops s life) (hrun : Machine.run CallQueue.deliver start ops = some s) {tag : Nat}
    (hgone : life tag = .gone) {later : List Operation} {t : CallQueue}
    (hlater : Machine.run CallQueue.deliver s later = some t) {op : Operation} (hop : op ∈ later) :
    op.tag ≠ tag := by
  intro heq
  -- both operations of the object have been delivered before
  have hbefore : ops.count op = 1 := by
    obtain ⟨tag', opKind⟩ := op
    obtain rfl : tag' = tag := heq
    obtain ⟨hrequest, hfinish⟩ := h.delivered_eq tag'
    rw [hgone] at hrequest hfinish
    cases opKind with
    | request => exact hrequest
    | finish => exact hfinish
  have hall : Machine.run CallQueue.deliver start (ops ++ later) = some t := by
    rw [Machine.run_append, hrun]
    exact hlater
  obtain ⟨life', h'⟩ := run_lives hall
  have hcount := h'.count_le_one op
  have hpos : 0 < later.count op := List.count_pos_iff.mpr hop
  rw [List.count_append] at hcount
  omega

/-- Every worker request is answered exactly once and a listener is always armed. For every sequence
of deliveries of registered operations: one object of each kind waits for a request; an object that
received one has called `Finish` exactly once; any other live object waits for its `Finish` event;
an object is deleted exactly as often as its `Finish` event came, at most once, and is then never
the tag of a later event; and each registered operation can be delivered. -/
theorem answered_once {ops : List Operation} {s : CallQueue}
    (hrun : Machine.run CallQueue.deliver start ops = some s) :
    (∀ kind, ∃! tag, s.loop.objects tag = some ⟨kind, .process⟩ ∧
      ⟨tag, .request⟩ ∈ s.registered) ∧
    (∀ tag, ⟨tag, .request⟩ ∈ ops → s.finished.count tag = 1) ∧
    (∀ tag call, s.loop.objects tag = some call →
      call.status = .process ∧ ⟨tag, .request⟩ ∈ s.registered ∨
      call.status = .finish ∧ ⟨tag, .finish⟩ ∈ s.registered) ∧
    (∀ tag, s.deleted.count tag = ops.count ⟨tag, .finish⟩ ∧ s.deleted.count tag ≤ 1) ∧
    (∀ tag ∈ s.deleted, s.loop.objects tag = none ∧ ∀ later t,
      Machine.run CallQueue.deliver s later = some t → ∀ op ∈ later, op.tag ≠ tag) ∧
    ∀ op ∈ s.registered, (s.deliver op).isSome = true := by
  obtain ⟨life, h⟩ := run_lives hrun
  have hfinished : ∀ tag, s.finished.count tag = (life tag).profile.finished :=
    fun tag => congrArg Profile.finished (h.profile tag)
  have hdeleted : ∀ tag, s.deleted.count tag = (life tag).profile.deleted :=
    fun tag => congrArg Profile.deleted (h.profile tag)
  refine ⟨fun kind => ?_, fun tag htag => ?_, fun tag call hcall => ?_, fun tag => ?_,
    fun tag htag => ?_, fun op hop => ?_⟩
  · obtain ⟨tag, htag, hunique⟩ := h.waiting kind
    refine ⟨tag, ⟨h.waiting_iff.mpr htag, ?_⟩, ?_⟩
    · rw [← List.count_pos_iff, (h.registered_eq tag).1, htag]
      exact Nat.one_pos
    · intro tag' htag'
      exact hunique tag' (h.waiting_iff.mp htag'.1)
  · rw [← List.count_pos_iff, (h.delivered_eq tag).1] at htag
    rw [hfinished]
    revert htag
    cases life tag <;> simp [Stage.profile]
  · rw [h.object_eq] at hcall
    rw [← List.count_pos_iff, ← List.count_pos_iff, (h.registered_eq tag).1,
      (h.registered_eq tag).2]
    revert hcall
    cases life tag with
    | unborn | gone => exact nofun
    | waiting kind =>
        intro hcall
        cases hcall
        exact .inl ⟨rfl, Nat.one_pos⟩
    | replying kind =>
        intro hcall
        cases hcall
        exact .inr ⟨rfl, Nat.one_pos⟩
  · rw [hdeleted, (h.delivered_eq tag).2]
    cases life tag <;> simp [Stage.profile]
  · have hgone : life tag = .gone := by
      rw [← List.count_pos_iff, hdeleted] at htag
      revert htag
      cases life tag <;> simp [Stage.profile]
    refine ⟨?_, fun later t hlater op hop => h.gone_no_event hrun hgone hlater hop⟩
    rw [h.object_eq, hgone]
    rfl
  · obtain ⟨t, -, ht, -⟩ := h.deliver hop
    rw [ht]
    rfl

/-- A map request arrives and its reply is confirmed: the object is deleted, and the next one
waits. -/
theorem answered_once_map :
    ∃ s, Machine.run CallQueue.deliver start [⟨2, .request⟩, ⟨2, .finish⟩] = some s ∧
      s.finished.count 2 = 1 ∧ s.deleted.count 2 = 1 ∧
      ∃! tag, s.loop.objects tag = some ⟨.mapTask, .process⟩ ∧ ⟨tag, .request⟩ ∈ s.registered := by
  have hrun : Machine.run CallQueue.deliver start [⟨2, .request⟩, ⟨2, .finish⟩] = some _ := rfl
  obtain ⟨hwaiting, hanswered, -, hdeleted, -, -⟩ := answered_once hrun
  exact ⟨_, hrun, hanswered 2 (by decide), (hdeleted 2).1, hwaiting .mapTask⟩

end CallQueue

end MapReduce
