import PixelKernel.Proofs.Graph.Kernels

/-! # What observers hear

A kernel tells each of its observers of a change once, the oldest subscription first, when the
change has been made. What a subscription hears in a history follows from the operations alone:
the changes of its kernel from the time it was made until it was ended.
-/

namespace PixelKernel.Graph

open PixelKernel.Language (Value)

variable {κ χ : Type} [Scalar κ] [Scalar χ] [Narrow κ χ]

/-! ## Deliveries -/

/-- What an operation delivers. Only changes to kernels are told. -/
def Operation.deliveries (s : Store κ χ) : Operation κ χ → List (Delivery κ χ)
  | compile k source => (s.compile k source).deliveries
  | compileLines k lines => (s.compileLines k lines).deliveries
  | bind k name v => (s.bind k name v).deliveries
  | bindJson k name v => (s.bindJson k name v).deliveries
  | newKernel | subscribe _ | unsubscribe .. | newNode _ | newCanvas .. | clear .. | composite .. =>
    []

/-- The store that operations leave, the latest of which comes first. -/
def leftBy (run : Nat → Runner κ χ) : List (Operation κ χ) → Store κ χ
  | [] => .new
  | op :: before => (op.perform run (leftBy run before)).2

/-- All that is delivered in a history, in the order of delivery. -/
def delivered (run : Nat → Runner κ χ) : List (Operation κ χ) → List (Delivery κ χ)
  | [] => []
  | op :: before => delivered run before ++ op.deliveries (leftBy run before)

/-- Events that a subscription has recorded. -/
def recorded (n : Nat) (ds : List (Delivery κ χ)) : List Event :=
  (ds.filter (·.notice.subscription = n)).map (·.notice.event)

/-! ## What there is to hear -/

/-- The kernel that an operation has to do with and the event that it makes. A compilation that
    fails has taken place, a binding that fails has not. -/
def Operation.event? (s : Store κ χ) : Operation κ χ → Option (Nat × Event)
  | compile k _ | compileLines k _ => some (k, .moduleChanged)
  | bind k name v => if (s.bind k name v).result.isOk then some (k, .argumentChanged name) else none
  | bindJson k name v =>
    if (s.bindJson k name v).result.isOk then some (k, .argumentChanged name) else none
  | newKernel | subscribe _ | unsubscribe .. | newNode _ | newCanvas .. | clear .. | composite .. =>
    none

/-- Events of a kernel in the operations `during`, which come after others. -/
def eventsOf (run : Nat → Runner κ χ) (k : Nat) (before : List (Operation κ χ)) :
    (during : List (Operation κ χ)) → List Event
  | [] => []
  | op :: during => eventsOf run k before during ++
    (match op.event? (leftBy run (during ++ before)) with
    | some (j, event) => if j = k then [event] else []
    | none => [])

def Operation.isSubscribe : Operation κ χ → Bool
  | subscribe _ => true
  | _ => false

def Operation.isUnsubscribe : Operation κ χ → Bool
  | unsubscribe .. => true
  | _ => false

/-- Number of subscriptions that a history makes. Each is numbered by those before it. -/
def subscriptionsIn (ops : List (Operation κ χ)) : Nat := ops.countP (·.isSubscribe)

/-- The subscription was made on the kernel and has not been ended since. -/
def Listens (n k : Nat) (ops : List (Operation κ χ)) : Prop :=
  ∃ later before, ops = later ++ .subscribe k :: before ∧ n = subscriptionsIn before ∧
    .unsubscribe k n ∉ later

section

omit [Scalar κ] [Scalar χ] [Narrow κ χ]

variable {n k : Nat} {op : Operation κ χ} {ops : List (Operation κ χ)}

theorem not_listens_nil : ¬ Listens n k ([] : List (Operation κ χ)) := by
  rintro ⟨later, before, eq, -⟩
  simp at eq

theorem listens_cons : Listens n k (op :: ops) ↔
    (op = .subscribe k ∧ n = subscriptionsIn ops) ∨ (op ≠ .unsubscribe k n ∧ Listens n k ops) := by
  constructor
  · rintro ⟨later, before, eq, number, kept⟩
    cases later with
    | nil =>
        simp only [List.nil_append, List.cons.injEq] at eq
        exact .inl ⟨eq.1, eq.2 ▸ number⟩
    | cons first later =>
        simp only [List.cons_append, List.cons.injEq] at eq
        rw [List.mem_cons, not_or] at kept
        exact .inr ⟨fun same => kept.1 (same.symm.trans eq.1), later, before, eq.2, number, kept.2⟩
  · rintro (⟨rfl, number⟩ | ⟨other, later, before, rfl, number, kept⟩)
    · exact ⟨[], ops, rfl, number, List.not_mem_nil⟩
    · refine ⟨op :: later, before, rfl, number, ?_⟩
      rw [List.mem_cons, not_or]
      exact ⟨other.symm, kept⟩

/-- A subscription that listens was made before. -/
theorem Listens.lt (h : Listens n k ops) : n < subscriptionsIn ops := by
  obtain ⟨later, before, rfl, rfl, -⟩ := h
  simp [subscriptionsIn, Operation.isSubscribe]
  omega

/-- A subscription is on one kernel. -/
theorem Listens.unique {j : Nat} (h : Listens n j ops)
    (h' : Listens n k ops) : j = k := by
  induction ops with
  | nil => exact absurd h not_listens_nil
  | cons op ops ih =>
      rcases listens_cons.1 h with ⟨made, number⟩ | ⟨-, old⟩
      · rcases listens_cons.1 h' with ⟨made', -⟩ | ⟨-, old'⟩
        · rw [made] at made'
          exact Operation.subscribe.inj made'
        · exact absurd old'.lt (by omega)
      · rcases listens_cons.1 h' with ⟨-, number'⟩ | ⟨-, old'⟩
        · exact absurd old.lt (by omega)
        · exact ih old old'

end

theorem Reached.eq_leftBy {run : Nat → Runner κ χ} {ops : List (Operation κ χ)} {s : Store κ χ}
    (h : Reached run ops s) : s = leftBy run ops := by
  induction h with
  | new => rfl
  | step _ _ ih => rw [ih, leftBy]

/-! ## Who is told -/

@[simp] theorem Kernel.observers_compile (kernel : Kernel) (source : String) :
    (kernel.compile source).observers = kernel.observers := by
  unfold compile
  split <;> rfl

/-- The observers of every kernel are the subscriptions that listen, the oldest first. -/
structure Store.Knows (s : Store κ χ) (ops : List (Operation κ χ)) : Prop where
  count : s.subscriptions = subscriptionsIn ops
  ordered : ∀ k, (s.kernel k).observers.Pairwise (· < ·)
  registered : ∀ k n, n ∈ (s.kernel k).observers ↔ Listens n k ops

namespace Store

variable {s s' : Store κ χ} {k : Nat} {ops : List (Operation κ χ)}

omit [Scalar κ] [Scalar χ] [Narrow κ χ]

/-- A kernel that changes in other ways keeps its observers. -/
theorem observers_setKernel {j : Nat} {kernel : Kernel} (there : k < s.kernels.size)
    (same : kernel.observers = (s.kernel k).observers) :
    ((s.setKernel k kernel).kernel j).observers = (s.kernel j).observers := by
  by_cases here : j = k
  · subst here
    rw [kernel_setKernel_self there, same]
  · rw [kernel_setKernel_ne here]

theorem observers_bind {j : Nat} {name : String} {v : Option Value} (there : k < s.kernels.size) :
    ((s.bind k name v).store.kernel j).observers = (s.kernel j).observers := by
  unfold bind
  split
  · rfl
  · exact observers_setKernel there rfl

theorem subscriptions_bind {name : String} {v : Option Value} :
    (s.bind k name v).store.subscriptions = s.subscriptions := by
  unfold bind
  split <;> rfl

theorem size_bind {name : String} {v : Option Value} :
    (s.bind k name v).store.kernels.size = s.kernels.size := by
  unfold bind
  split
  · rfl
  · simp [setKernel]

/-- An operation that has nothing to do with subscriptions. -/
theorem Knows.other {op : Operation κ χ} (knows : s.Knows ops)
    (count : s'.subscriptions = s.subscriptions)
    (observers : ∀ k, (s'.kernel k).observers = (s.kernel k).observers)
    (subscribe : op.isSubscribe = false) (unsubscribe : op.isUnsubscribe = false) :
    s'.Knows (op :: ops) where
  count := by
    rw [count, knows.count, subscriptionsIn, subscriptionsIn, List.countP_cons, subscribe]
    simp
  ordered k := by rw [observers]; exact knows.ordered k
  registered k n := by
    have made : op ≠ .subscribe k := by
      rintro rfl
      simp [Operation.isSubscribe] at subscribe
    have kept : op ≠ .unsubscribe k n := by
      rintro rfl
      simp [Operation.isUnsubscribe] at unsubscribe
    rw [observers, knows.registered, listens_cons]
    simp [made, kept]

theorem Knows.subscribe (knows : s.Knows ops) (there : k < s.kernels.size) :
    (s.subscribe k).2.Knows (.subscribe k :: ops) := by
  have self : ((s.subscribe k).2.kernel k).observers = (s.kernel k).observers ++ [s.subscriptions] :=
    congrArg Kernel.observers (kernel_setKernel_self there)
  have others {j : Nat} (ne : j ≠ k) : (s.subscribe k).2.kernel j = s.kernel j :=
    kernel_setKernel_ne ne
  refine ⟨?_, fun j => ?_, fun j n => ?_⟩
  · simp [Store.subscribe, subscriptionsIn, Operation.isSubscribe, knows.count]
  · by_cases same : j = k
    · subst same
      rw [self, List.pairwise_append]
      refine ⟨knows.ordered j, List.pairwise_singleton .., fun n old m new => ?_⟩
      rw [List.mem_singleton.1 new, knows.count]
      exact ((knows.registered j n).1 old).lt
    · rw [others same]
      exact knows.ordered j
  · rw [listens_cons, ← knows.registered]
    by_cases same : j = k
    · subst same
      simp [self, knows.count, or_comm]
    · simp [others same, Ne.symm same]

theorem Knows.unsubscribe (knows : s.Knows ops) (there : k < s.kernels.size) (m : Nat) :
    (s.unsubscribe k m).2.Knows (.unsubscribe k m :: ops) := by
  have self : ((s.unsubscribe k m).2.kernel k).observers = (s.kernel k).observers.filter (· != m) :=
    congrArg Kernel.observers (kernel_setKernel_self there)
  have others {j : Nat} (ne : j ≠ k) : (s.unsubscribe k m).2.kernel j = s.kernel j :=
    kernel_setKernel_ne ne
  refine ⟨?_, fun j => ?_, fun j n => ?_⟩
  · simpa [Store.unsubscribe, setKernel, subscriptionsIn, Operation.isSubscribe] using knows.count
  · by_cases same : j = k
    · subst same
      rw [self]
      exact (knows.ordered j).filter _
    · rw [others same]
      exact knows.ordered j
  · rw [listens_cons, ← knows.registered]
    by_cases same : j = k
    · subst same
      simp only [self, List.mem_filter, bne_iff_ne, ne_eq, reduceCtorEq, false_and, false_or,
        Operation.unsubscribe.injEq, true_and]
      rw [and_comm, eq_comm]
    · simp [others same, Ne.symm same]

end Store

/-- Every operation leaves the observers as its history has them. -/
theorem Operation.knows_perform (run : Nat → Runner κ χ) {s : Store κ χ} {op : Operation κ χ}
    {ops : List (Operation κ χ)} (names : op.Names s) (knows : s.Knows ops) :
    (op.perform run s).2.Knows (op :: ops) := by
  cases op with
  | newKernel =>
    exact knows.other rfl (fun k => by rw [perform, Store.kernel_addKernel]) rfl rfl
  | compile k source =>
    have observers := Kernel.observers_compile (s.kernel k) source
    exact knows.other rfl (fun j => Store.observers_setKernel names observers) rfl rfl
  | compileLines k lines =>
    have observers := Kernel.observers_compile (s.kernel k) ("\n".intercalate lines)
    exact knows.other rfl (fun j => Store.observers_setKernel names observers) rfl rfl
  | bind k name v =>
    exact knows.other Store.subscriptions_bind (fun j => Store.observers_bind names.1) rfl rfl
  | bindJson k name v =>
    simp only [perform, Store.bindJson]
    split
    · exact knows.other rfl (fun _ => rfl) rfl rfl
    · exact knows.other Store.subscriptions_bind (fun j => Store.observers_bind names) rfl rfl
  | subscribe k => exact knows.subscribe names
  | unsubscribe k n => exact knows.unsubscribe names n
  | newNode n =>
    cases n with
    | kernel k policy =>
        simp only [perform, Store.addKernelNode]
        split
        · exact knows.other rfl (fun _ => rfl) rfl rfl
        · next added =>
          split at added <;> cases added
          exact knows.other rfl (fun _ => rfl) rfl rfl
    | empty | buffer | transform | crop | canvas =>
        exact knows.other rfl (fun _ => rfl) rfl rfl
  | newCanvas extent limits allocates =>
    simp only [perform]
    split <;> exact knows.other rfl (fun _ => rfl) rfl rfl
  | clear c colour =>
    simp only [perform, Store.clear]
    split <;> exact knows.other rfl (fun _ => rfl) rfl rfl
  | composite c n origin =>
    simp only [perform, Store.composite]
    split
    · exact knows.other rfl (fun _ => rfl) rfl rfl
    · split <;> exact knows.other rfl (fun _ => rfl) rfl rfl

theorem Reached.knows {run : Nat → Runner κ χ} {ops : List (Operation κ χ)} {s : Store κ χ}
    (h : Reached run ops s) : s.Knows ops := by
  induction h with
  | new =>
    refine ⟨rfl, fun _ => .nil, fun k n => ⟨fun registered => ?_, fun listens => ?_⟩⟩
    · cases registered
    · exact absurd listens not_listens_nil
  | step _ names ih => exact Operation.knows_perform run names ih

/-! ## What is told -/

namespace Store

variable {s : Store κ χ} {k : Nat} {name : String}

omit [Scalar κ] [Scalar χ] [Narrow κ χ]

/-- A kernel that has changed tells its observers, who find it changed. -/
theorem notify_setKernel (there : k < s.kernels.size) {kernel : Kernel} (event : Event)
    (same : kernel.observers = (s.kernel k).observers) : (s.setKernel k kernel).notify k event =
      (s.kernel k).observers.map fun n => ⟨⟨n, event⟩, s.setKernel k kernel⟩ := by
  rw [notify, observers_setKernel there same]

theorem deliveries_compile (there : k < s.kernels.size) (source : String) :
    (s.compile k source).deliveries =
      (s.kernel k).observers.map fun n => ⟨⟨n, .moduleChanged⟩, (s.compile k source).store⟩ :=
  notify_setKernel there _ (Kernel.observers_compile _ source)

theorem deliveries_bind (there : k < s.kernels.size) (v : Option Value) :
    (s.bind k name v).deliveries =
      if (s.bind k name v).result.isOk then
        (s.kernel k).observers.map fun n => ⟨⟨n, .argumentChanged name⟩, (s.bind k name v).store⟩
      else [] := by
  unfold bind
  split
  · rfl
  · exact notify_setKernel there _ rfl

theorem deliveries_bindJson (there : k < s.kernels.size) (v : Json) :
    (s.bindJson k name v).deliveries =
      if (s.bindJson k name v).result.isOk then
        (s.kernel k).observers.map fun n =>
          ⟨⟨n, .argumentChanged name⟩, (s.bindJson k name v).store⟩
      else [] := by
  unfold bindJson
  split
  · rfl
  · exact deliveries_bind there _

end Store

/-- An operation tells its event to the observers of its kernel, and they find the store that it
    leaves. -/
theorem Operation.deliveries_eq (run : Nat → Runner κ χ) {s : Store κ χ} {op : Operation κ χ}
    (names : op.Names s) : op.deliveries s =
      match op.event? s with
      | none => []
      | some (k, event) => (s.kernel k).observers.map fun n => ⟨⟨n, event⟩, (op.perform run s).2⟩ := by
  cases op with
  | compile k source => exact Store.deliveries_compile names source
  | compileLines k lines => exact Store.deliveries_compile names _
  | bind k name v =>
    simp only [deliveries, event?, perform, Store.deliveries_bind names.1]
    split <;> rfl
  | bindJson k name v =>
    simp only [deliveries, event?, perform, Store.deliveries_bindJson names]
    split <;> rfl
  | newKernel | subscribe | unsubscribe | newNode | newCanvas | clear | composite => rfl

/-! ## What is recorded -/

section

omit [Scalar κ] [Scalar χ] [Narrow κ χ]

variable {n : Nat}

theorem recorded_append (ds es : List (Delivery κ χ)) :
    recorded n (ds ++ es) = recorded n ds ++ recorded n es := by
  simp [recorded]

/-- Of several that are told, each hears the event once. -/
theorem recorded_map {ns : List Nat} (nodup : ns.Nodup) (event : Event) (s : Store κ χ) :
    recorded n (ns.map fun m => ⟨⟨m, event⟩, s⟩) = if n ∈ ns then [event] else [] := by
  induction ns with
  | nil => rfl
  | cons m ns ih =>
      rw [List.nodup_cons] at nodup
      have rest := ih nodup.2
      simp only [recorded, List.map_cons, List.filter_cons] at rest ⊢
      by_cases same : m = n
      · subst same
        simpa [nodup.1] using rest
      · simpa [same, Ne.symm same] using rest

end

section

variable {run : Nat → Runner κ χ} {s : Store κ χ} {op : Operation κ χ} {ops : List (Operation κ χ)}
  {n : Nat}

/-- A subscription that listens to a kernel hears its events and no others. -/
theorem Store.Knows.recorded_of_listens (knows : s.Knows ops) (names : op.Names s) {k : Nat}
    (listens : Listens n k ops) : recorded n (op.deliveries s) =
      match op.event? s with
      | some (j, event) => if j = k then [event] else []
      | none => [] := by
  -- the runner is not looked at, as nothing is drawn
  rw [op.deliveries_eq (fun _ _ _ _ _ => .ok .transparent) names]
  split
  · next none_ => rw [none_]; rfl
  · next j event some_ =>
    have hears : n ∈ (s.kernel j).observers ↔ j = k := (knows.registered j n).trans
      ⟨fun other => other.unique listens, fun same => same ▸ listens⟩
    simp only [some_, recorded_map (List.Pairwise.imp Nat.ne_of_lt (knows.ordered j)), hears]

/-- A subscription that listens to no kernel hears nothing. -/
theorem Store.Knows.recorded_of_silent (knows : s.Knows ops) (names : op.Names s)
    (silent : ∀ k, ¬ Listens n k ops) : recorded n (op.deliveries s) = [] := by
  rw [op.deliveries_eq (fun _ _ _ _ _ => .ok .transparent) names]
  split
  · rfl
  · next j event some_ =>
    have deaf : n ∉ (s.kernel j).observers := fun there => silent j ((knows.registered j n).1 there)
    rw [recorded_map (List.Pairwise.imp Nat.ne_of_lt (knows.ordered j)), if_neg deaf]

end

section

variable {run : Nat → Runner κ χ} {ops before during after : List (Operation κ χ)} {s : Store κ χ}
  {n k : Nat}

/-- What led to a store was a history all the way. -/
theorem Reached.earlier (h : Reached run (during ++ before) s) :
    Reached run before (leftBy run before) := by
  induction during generalizing s with
  | nil => exact h.eq_leftBy ▸ h
  | cons op during ih =>
      cases h with
      | step reached names => exact ih reached

/-- Before it is made, a subscription has recorded nothing. -/
theorem Reached.recorded_new (h : Reached run ops s) (new : subscriptionsIn ops ≤ n) :
    recorded n (delivered run ops) = [] := by
  induction h with
  | new => rfl
  | @step op ops s reached names ih =>
      have fewer : subscriptionsIn ops ≤ n := by
        rw [subscriptionsIn, List.countP_cons] at new
        exact Nat.le_trans (Nat.le_add_right ..) new
      rw [delivered, recorded_append, ih fewer, ← reached.eq_leftBy, List.nil_append]
      exact reached.knows.recorded_of_silent names fun k listens => absurd listens.lt (by omega)

/-- While it listens, a subscription records the events of its kernel. -/
theorem Reached.recorded_during (h : Reached run (during ++ before) s)
    (nothing : recorded n (delivered run before) = []) (listens : Listens n k before)
    (kept : .unsubscribe k n ∉ during) : Listens n k (during ++ before) ∧
      recorded n (delivered run (during ++ before)) = eventsOf run k before during := by
  induction during generalizing s with
  | nil => exact ⟨listens, nothing⟩
  | cons op during ih =>
      rw [List.mem_cons, not_or] at kept
      cases h with
      | @step _ _ t reached names =>
          have reached : Reached run (during ++ before) t := reached
          obtain ⟨still, heard⟩ := ih reached kept.2
          refine ⟨listens_cons.2 (.inr ⟨Ne.symm kept.1, still⟩), ?_⟩
          rw [List.cons_append, delivered, recorded_append, heard, ← reached.eq_leftBy,
            reached.knows.recorded_of_listens names still, eventsOf, ← reached.eq_leftBy]

/-- Once it is ended, a subscription records nothing more. -/
theorem Reached.recorded_after (h : Reached run (after ++ ops) s) (old : n < subscriptionsIn ops)
    (silent : ∀ k, ¬ Listens n k ops) : (∀ k, ¬ Listens n k (after ++ ops)) ∧
      recorded n (delivered run (after ++ ops)) = recorded n (delivered run ops) := by
  induction after generalizing s with
  | nil => exact ⟨silent, rfl⟩
  | cons op after ih =>
      cases h with
      | @step _ _ t reached names =>
          have reached : Reached run (after ++ ops) t := reached
          obtain ⟨still, same⟩ := ih reached
          have more : subscriptionsIn ops ≤ subscriptionsIn (after ++ ops) := by
            simp [subscriptionsIn]
          refine ⟨fun k listens => ?_, ?_⟩
          · cases listens_cons.1 listens with
            | inl made =>
                have number : n = subscriptionsIn (after ++ ops) := made.2
                omega
            | inr older => exact still k older.2
          · rw [List.cons_append, delivered, recorded_append, same, ← reached.eq_leftBy,
              reached.knows.recorded_of_silent names still, List.append_nil]

end

/-- What observers hear of a history, and what they will hear of the next operation. -/
structure Observed (run : Nat → Runner κ χ) (ops : List (Operation κ χ)) (s : Store κ χ) : Prop where
  /-- An operation that makes an event tells it to the observers of its kernel in their order. Each
      of them finds the store as the operation leaves it. -/
  told : ∀ op : Operation κ χ, op.Names s → op.deliveries s =
    match op.event? s with
    | none => []
    | some (k, event) => (s.kernel k).observers.map fun n => ⟨⟨n, event⟩, (op.perform run s).2⟩
  /-- The oldest subscription comes first, and none comes twice. -/
  ordered : ∀ k, (s.kernel k).observers.Pairwise (· < ·)
  registered : ∀ k n, n ∈ (s.kernel k).observers ↔ Listens n k ops
  /-- A subscription is numbered by those made before it, on whatever kernel. -/
  subscribed : ∀ k, (s.subscribe k).1 = subscriptionsIn ops
  unsubscribed : ∀ k n, (s.unsubscribe k n).1 = true ↔ Listens n k ops
  /-- A subscription has recorded the events of its kernel between the operation that made it and
      the one that ended it, if there was one. -/
  recorded : ∀ before during after k, ops = after ++ during ++ .subscribe k :: before →
    .unsubscribe k (subscriptionsIn before) ∉ during →
    (∀ op ∈ after.getLast?, op = .unsubscribe k (subscriptionsIn before)) →
    recorded (subscriptionsIn before) (delivered run ops) =
      eventsOf run k (.subscribe k :: before) during

/-- Whatever is done to a store, observers hear of exactly the changes that concern them. -/
theorem Reached.hears {run : Nat → Runner κ χ} {ops : List (Operation κ χ)} {s : Store κ χ}
    (h : Reached run ops s) : Observed run ops s where
  told op names := op.deliveries_eq run names
  ordered := h.knows.ordered
  registered := h.knows.registered
  subscribed k := h.knows.count
  unsubscribed k n := by
    rw [← h.knows.registered]
    exact List.contains_iff_mem
  recorded before during after k eq kept ended := by
    subst eq
    rw [List.append_assoc] at h ⊢
    have made : Listens (subscriptionsIn before) k (.subscribe k :: before) :=
      listens_cons.2 (.inl ⟨rfl, rfl⟩)
    have start : PixelKernel.Graph.recorded (subscriptionsIn before)
        (delivered run (.subscribe k :: before)) = [] := by
      have subscribed : Reached run ([.subscribe k] ++ before) _ := h.earlier.earlier
      have reached : Reached run before (leftBy run before) := subscribed.earlier
      rw [delivered, recorded_append, reached.recorded_new (Nat.le_refl _)]
      rfl
    obtain ⟨listens, heard⟩ := h.earlier.recorded_during start made kept
    rw [← heard]
    cases last : after.getLast? with
    | none => rw [List.getLast?_eq_none_iff.1 last, List.nil_append]
    | some op =>
        obtain rfl := ended op last
        obtain ⟨rest, rfl⟩ := List.getLast?_eq_some_iff.1 last
        rw [List.append_assoc, List.singleton_append] at h ⊢
        have silent (j : Nat) : ¬ Listens (subscriptionsIn before) j
            (.unsubscribe k (subscriptionsIn before) :: (during ++ .subscribe k :: before)) := by
          intro still
          rcases listens_cons.1 still with ⟨⟨⟩, -⟩ | ⟨other, still⟩
          exact other (by rw [still.unique listens])
        rw [(h.recorded_after listens.lt silent).2, delivered, recorded_append]
        exact List.append_nil _

/-- A failing bind and a compilation while a kernel is observed, and another compilation later. -/
def observedOnce : List (Operation Float Float32) :=
  [.compile 0 "", .unsubscribe 0 0, .compile 0 "", .bind 0 "x" none, .subscribe 0, .newKernel]

theorem reached_observedOnce : ∃ s, Reached runForColour observedOnce s := by
  have bound : Reached runForColour [.bind 0 "x" none, .subscribe 0, .newKernel] _ :=
    .step (.step (.step .new trivial) (show 0 < 1 by decide))
      ⟨show 0 < 1 by decide, fun v h => by cases h⟩
  refine ⟨_, .step (.step (.step bound ?_) ?_) ?_⟩
  all_goals simp [Operation.Names, Operation.perform, Store.size_bind, Store.addKernel, Store.new,
    Store.subscribe, Store.unsubscribe, Store.compile, Store.setKernel]

theorem observedOnce_hears : ∃ s, Reached runForColour observedOnce s ∧
    Observed runForColour observedOnce s ∧
    recorded 0 (delivered runForColour observedOnce) = [.moduleChanged] := by
  obtain ⟨s, reached⟩ := reached_observedOnce
  have observed := reached.hears
  refine ⟨s, reached, observed, ?_⟩
  exact observed.recorded [.newKernel] [.compile 0 "", .bind 0 "x" none]
    [.compile 0 "", .unsubscribe 0 0] 0 rfl (by simp [subscriptionsIn, Operation.isSubscribe])
    (by simp [subscriptionsIn, Operation.isSubscribe])

end PixelKernel.Graph
