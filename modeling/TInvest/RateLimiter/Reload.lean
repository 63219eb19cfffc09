import TInvest.RateLimiter.Windows

/-!
# Reloading a tariff

`Client::load_rate_limits` calls `configure` with the tariff of the user, and it may be called
again. `configure` rebuilds the table from new groups, so what the old ones have counted is gone.

* `Loaded` — in a run that only reloads one tariff, the objects of its groups are made in
  blocks, and the table holds the last block;
* `Filed`, `InOrder` — so an admission tells by its place in the trace which object it charged,
  and the charges to an object come after everything before the reload that made it;
* `reload_limit_bounds` — each reload grants at most one more limit;
* `reload_grants_quota` — and may grant it.
-/

namespace TInvest
namespace RateLimiter

open Lib.MapFold
open Lib.Transition
open Lib.FixedWindow

/-- The keys of the methods of a group. -/
def UnaryLimit.names (ul : UnaryLimit) : List String := ul.methods.map normalize

/-- No method is in two groups of the tariff. -/
def DisjointMethods (tariff : Tariff) : Prop :=
  tariff.Pairwise fun ul ul' => ∀ m ∈ ul.names, m ∉ ul'.names

instance (tariff : Tariff) : Decidable (DisjointMethods tariff) :=
  inferInstanceAs (Decidable (List.Pairwise _ _))

/-- The admissions of the methods of a group of the tariff. -/
def ofLimit (ul : UnaryLimit) (m : String) (_ : Option ℕ) : Bool := decide (m ∈ ul.names)

/-- How often the limiter was configured. -/
def reloads (trace : List Event) : ℕ := trace.count .reconfigured

/-- The tariff is loaded before the limiter is first asked, and any number of times afterwards;
nothing else reconfigures the limiter, no blocked caller comes back, and the clock runs. -/
def Reloads (W : ℤ) (tariff : Tariff) (s : State) (a : Action) : Prop :=
  Clocked W s a ∧
    match a with
    | .configure t => t = tariff
    | .setLimit _ _ => False
    | .tryAcquire _ _ => Event.reconfigured ∈ s.trace
    | .acquire _ _ _ => Event.reconfigured ∈ s.trace
    | .wake _ _ => False

instance (W : ℤ) (tariff : Tariff) (s : State) (a : Action) : Decidable (Reloads W tariff s a) :=
  match a with
  | .configure t => inferInstanceAs (Decidable (Clocked W s _ ∧ t = tariff))
  | .setLimit _ _ => isFalse fun h => h.2
  | .tryAcquire _ _ => inferInstanceAs (Decidable (Clocked W s _ ∧ Event.reconfigured ∈ s.trace))
  | .acquire _ _ _ => inferInstanceAs (Decidable (Clocked W s _ ∧ Event.reconfigured ∈ s.trace))
  | .wake _ _ => isFalse fun h => h.2

lemma reloads_append (l l' : List Event) : reloads (l ++ l') = reloads l + reloads l' :=
  List.count_append

lemma reloads_cons (l : List Event) : reloads (.reconfigured :: l) = reloads l + 1 :=
  List.count_cons_self

lemma reloads_eq_zero {l : List Event} (h : Event.reconfigured ∉ l) : reloads l = 0 :=
  List.count_eq_zero.mpr h

/-! ## Loading -/

lemma addGroup_byMethod_of_mem {ul : UnaryLimit} {m : String} (h : m ∈ ul.names) (s : State) :
    (addGroup ul.methods ul.limitPerMinute s).byMethod[m]? = some s.nextGroup := by
  obtain ⟨j, hj⟩ := exists_isLastIndex h
  exact getElem?_insertEach_of_last s.byMethod _ hj

/-- The groups of a tariff leave the other methods alone. -/
lemma addGroups_byMethod_of_notMem {tariff : Tariff} {m : String}
    (h : ∀ ul ∈ tariff, m ∉ ul.names) (s : State) :
    (addGroups tariff s).byMethod[m]? = s.byMethod[m]? := by
  induction tariff generalizing s with
  | nil => rfl
  | cons ul tariff ih =>
    have htail := ih (fun ul' hul => h ul' (List.mem_cons_of_mem ul hul))
      (addGroup ul.methods ul.limitPerMinute s)
    have hhead : (addGroup ul.methods ul.limitPerMinute s).byMethod[m]? = s.byMethod[m]? :=
      getElem?_insertEach_of_notMem s.byMethod _ (h ul (List.mem_cons_self ..))
    rw [← hhead, ← htail]
    rfl

lemma addGroups_nextGroup (tariff : Tariff) (s : State) :
    (addGroups tariff s).nextGroup = s.nextGroup + tariff.length := by
  induction tariff generalizing s with
  | nil => rfl
  | cons ul tariff ih =>
    show (addGroups tariff (addGroup ul.methods ul.limitPerMinute s)).nextGroup = _
    rw [ih, List.length_cons]
    simp only [addGroup]
    omega

/-- The `k`-th group of a tariff has its limit and its methods. -/
lemma addGroups_spec {tariff : Tariff} (hdis : DisjointMethods tariff) (s : State) (k : ℕ)
    (hk : k < tariff.length) :
    ((addGroups tariff s).groups (s.nextGroup + k)).limit = tariff[k].limitPerMinute ∧
      ∀ m ∈ tariff[k].names, (addGroups tariff s).byMethod[m]? = some (s.nextGroup + k) := by
  induction tariff generalizing s k with
  | nil => exact absurd hk (by simp)
  | cons ul tariff ih =>
    have hrest := List.pairwise_cons.mp hdis
    have hstep : addGroups (ul :: tariff) s
        = addGroups tariff (addGroup ul.methods ul.limitPerMinute s) := rfl
    rw [hstep]
    cases k with
    | zero =>
      -- the groups after the first one leave its object and its methods alone
      have hold := (addGroups_reconfigures tariff (addGroup ul.methods ul.limitPerMinute s)).old
        s.nextGroup (Nat.lt_succ_self _)
      refine ⟨?_, fun m hm => ?_⟩
      · rw [Nat.add_zero, hold]
        simp [addGroup]
      · have hm' : m ∈ ul.names := hm
        rw [addGroups_byMethod_of_notMem (fun ul' hul => hrest.1 ul' hul m hm'),
          addGroup_byMethod_of_mem hm']
        rfl
    | succ k =>
      have htail := ih hrest.2 (addGroup ul.methods ul.limitPerMinute s) k
        (by simpa using hk)
      have hnext : (addGroup ul.methods ul.limitPerMinute s).nextGroup + k
          = s.nextGroup + (k + 1) := by
        simp only [addGroup]
        omega
      rw [hnext] at htail
      exact htail

/-- `configure` makes one block of objects, and the table holds it. -/
lemma configure_spec {tariff : Tariff} (hdis : DisjointMethods tariff) (s : State) :
    (configure tariff s).nextGroup = s.nextGroup + tariff.length ∧
      (∀ k, (hk : k < tariff.length) →
        ((configure tariff s).groups (s.nextGroup + k)).limit = tariff[k].limitPerMinute ∧
        ∀ m ∈ tariff[k].names, (configure tariff s).byMethod[m]? = some (s.nextGroup + k)) ∧
      ∀ (m : String) (g : ℕ), (configure tariff s).byMethod[m]? = some g →
        s.nextGroup ≤ g ∧ g < s.nextGroup + tariff.length := by
  have hnext := addGroups_nextGroup tariff { s with byMethod := ∅ }
  refine ⟨hnext, fun k hk => addGroups_spec hdis { s with byMethod := ∅ } k hk, fun m g hg => ?_⟩
  rcases (addGroups_reconfigures tariff { s with byMethod := ∅ }).table m g hg with hold | hnew
  · exact absurd hold (by simp)
  · rw [hnext] at hnew
    exact hnew

/-! ## Runs -/

/-- The objects are made in blocks, one for each reload, and the table holds the last block. -/
structure Loaded (tariff : Tariff) (s : State) : Prop where
  next : s.nextGroup = reloads s.trace * tariff.length
  table : ∀ (m : String) (g : ℕ), s.byMethod[m]? = some g →
    reloads s.trace = g / tariff.length + 1
  listed : ∀ r, reloads s.trace = r + 1 → ∀ k, (hk : k < tariff.length) →
    ∀ m ∈ tariff[k].names, s.byMethod[m]? = some (r * tariff.length + k)
  limits : ∀ r < reloads s.trace, ∀ k, (hk : k < tariff.length) →
    (s.groups (r * tariff.length + k)).limit = tariff[k].limitPerMinute

/-- The objects of an earlier block come before those of a later one. -/
lemma block_lt {r r' n k : ℕ} (hr : r < r') (hk : k < n) : r * n + k < r' * n := by
  calc r * n + k < r * n + n := by omega
    _ = (r + 1) * n := by ring
    _ ≤ r' * n := Nat.mul_le_mul_right n hr

/-- A section that leaves the table and the limits alone leaves the blocks alone. -/
lemma Loaded.frame {tariff : Tariff} {s s' : State} (h : Loaded tariff s)
    (hby : s'.byMethod = s.byMethod) (hnext : s'.nextGroup = s.nextGroup)
    (hlimit : ∀ g, (s'.groups g).limit = (s.groups g).limit)
    (hcount : reloads s'.trace = reloads s.trace) : Loaded tariff s' where
  next := by
    rw [hnext, hcount]
    exact h.next
  table := by
    rw [hby, hcount]
    exact h.table
  listed := by
    rw [hby, hcount]
    exact h.listed
  limits := by
    intro r hr k hk
    rw [hlimit]
    exact h.limits r (by rw [← hcount]; exact hr) k hk

lemma loaded_step {W : ℤ} {tariff : Tariff} (hdis : DisjointMethods tariff) {s s' : State}
    {a : Action} (h : Loaded tariff s) (hok : Reloads W tariff s a)
    (hs : step W s a = some s') : Loaded tariff s' := by
  rcases step_cases hs with ⟨hnow, hre, htrace⟩ | ⟨m, group, now, w, hnow, hasks, rfl, -⟩
  · obtain rfl : s' = configure tariff s := by
      cases a with
      | configure t =>
        obtain rfl : t = tariff := hok.2
        exact (Option.some.inj hs).symm
      | setLimit methods perMinute => exact hok.2.elim
      | tryAcquire method t => exact absurd hnow (by simp [Action.now?])
      | acquire thread method t => exact absurd hnow (by simp [Action.now?])
      | wake thread t => exact absurd hnow (by simp [Action.now?])
    have hcount : reloads (configure tariff s).trace = reloads s.trace + 1 := by
      rw [htrace, reloads_append]
      rfl
    obtain ⟨hnext, hblock, htable⟩ := configure_spec hdis s
    refine ⟨?_, fun m g hg => ?_, fun r hr k hk m hm => ?_, fun r hr k hk => ?_⟩
    · rw [hnext, hcount, h.next, Nat.add_mul, Nat.one_mul]
    · obtain ⟨hle, hlt⟩ := htable m g hg
      rw [h.next] at hle hlt
      rw [hcount, Nat.div_eq_of_lt_le hle (by rw [Nat.add_mul, Nat.one_mul]; exact hlt)]
    · have hr' : reloads s.trace = r := by omega
      rw [(hblock k hk).2 m hm, h.next, hr']
    · rw [hcount] at hr
      rcases Nat.lt_succ_iff_lt_or_eq.mp hr with hold | hlast
      · -- an older block is left alone
        rw [hre.old _ (by rw [h.next]; exact block_lt hold hk)]
        exact h.limits r hold k hk
      · rw [hlast, ← h.next]
        exact (hblock k hk).1
  · obtain ⟨hby, hnext, hlimit⟩ := check_frame W s m group now
    obtain ⟨es, -, htrace, hrec⟩ := check_trace W s m group now
    have hcount : reloads (check W s m group now).1.trace = reloads s.trace := by
      rw [htrace, reloads_append, reloads_eq_zero fun he => hrec _ he, Nat.add_zero]
    exact h.frame hby hnext hlimit hcount

lemma loaded_of_reachable {W : ℤ} {tariff : Tariff} (hdis : DisjointMethods tariff) {s : State}
    (h : Reachable (limiter W) (Reloads W tariff) s) : Loaded tariff s := by
  have hinit : Loaded tariff (limiter W).init :=
    ⟨by simp [limiter, reloads], fun m g hg => absurd hg (by simp [limiter]),
      fun r hr => absurd hr (by simp [limiter, reloads]),
      fun r hr => absurd hr (by simp [limiter, reloads])⟩
  exact h.invariant hinit fun _ _ _ _ hi hok hs => loaded_step hdis hi hok hs

/-- An admission charges an object of the last block, the one of the group that lists its
method. -/
def Filed (tariff : Tariff) (pre : List Event) : Event → Prop
  | .admitted m _ charged _ =>
      (∀ g ∈ charged, reloads pre = g / tariff.length + 1) ∧
      ∀ k, (hk : k < tariff.length) → m ∈ tariff[k].names → 0 < tariff[k].limitPerMinute →
        ∃ r, reloads pre = r + 1 ∧ charged = some (r * tariff.length + k)
  | _ => True

/-- The readings do not go back. -/
def InOrder (pre : List Event) (e : Event) : Prop :=
  ∀ t ∈ e.time?, ∀ e' ∈ pre, ∀ t' ∈ e'.time?, t' ≤ t

/-- A caller that asks under the table files its admission. -/
lemma Loaded.filed {tariff : Tariff} {s : State} (h : Loaded tariff s)
    (hloaded : Event.reconfigured ∈ s.trace) {m : String} {now : ℤ} {e : Event}
    (hrec : Recorded s m s.byMethod[m]? now e) {pre : List Event}
    (hpre : reloads pre = reloads s.trace) : Filed tariff pre e := by
  cases e with
  | reconfigured => exact trivial
  | opened g t => exact trivial
  | full m' g t => exact trivial
  | admitted m' inForce charged t =>
    obtain ⟨hm, -, -, hcharged⟩ := hrec
    rw [Filed, hpre, hm]
    refine ⟨fun g hg => ?_, fun k hk hmem hpos => ?_⟩
    · rcases hcharged with ⟨hch, -⟩ | ⟨hch, -⟩
      · rw [hch] at hg
        exact h.table m g hg
      · rw [hch] at hg
        exact absurd hg (by simp)
    · have hsome : 0 < reloads s.trace := List.count_pos_iff.mpr hloaded
      obtain ⟨r, hr⟩ := Nat.exists_eq_succ_of_ne_zero hsome.ne'
      have hlisted := h.listed r hr k hk m hmem
      refine ⟨r, hr, ?_⟩
      rcases hcharged with ⟨hch, -⟩ | ⟨-, hun⟩
      · rw [hch, hlisted]
      · -- a caller passes uncharged only where there is no limit
        have hle := hun _ hlisted
        rw [h.limits r (by omega) k hk] at hle
        exact absurd hpos (not_lt.mpr hle)

lemma filed_step {W : ℤ} {tariff : Tariff} {s s' : State} {a : Action} (hloaded : Loaded tariff s)
    (hok : Reloads W tariff s a) (hs : step W s a = some s')
    (h : Guarded (Filed tariff) s.trace ∧ Guarded InOrder s.trace) :
    Guarded (Filed tariff) s'.trace ∧ Guarded InOrder s'.trace := by
  rcases step_cases hs with ⟨-, -, htrace⟩ | ⟨m, group, now, w, hnow, hasks, rfl, -⟩
  · rw [htrace, guarded_concat, guarded_concat]
    exact ⟨⟨h.1, trivial⟩, h.2, fun t ht => absurd ht (by simp [Event.time?])⟩
  · obtain ⟨es, -, htrace, hrec⟩ := check_trace W s m group now
    show Guarded (Filed tariff) (check W s m group now).1.trace ∧
      Guarded InOrder (check W s m group now).1.trace
    rw [htrace, guarded_append, guarded_append]
    have hasked : group = s.byMethod[m]? ∧ Event.reconfigured ∈ s.trace := by
      cases a with
      | configure t => exact hasks.elim
      | setLimit methods perMinute => exact hasks.elim
      | tryAcquire method t => exact ⟨hasks.2, hok.2⟩
      | acquire thread method t => exact ⟨hasks.2, hok.2⟩
      | wake thread t => exact hok.2.elim
    refine ⟨⟨h.1, ?_⟩, h.2, ?_⟩
    · intro pre e post hes
      have hnone : Event.reconfigured ∉ pre := by
        intro hmem
        exact hrec _ (by rw [hes]; exact List.mem_append_left _ hmem)
      have hpre : reloads (s.trace ++ pre) = reloads s.trace := by
        rw [reloads_append, reloads_eq_zero hnone, Nat.add_zero]
      have hrecorded := hrec e (by rw [hes]; simp)
      rw [hasked.1] at hrecorded
      exact hloaded.filed hasked.2 hrecorded hpre
    · intro pre e post hes t ht e' he' t' ht'
      have htime := recorded_time (hrec e (by rw [hes]; simp)) t ht
      rcases List.mem_append.mp he' with hold | hnew
      · rw [htime]
        exact (hok.1 now hnow).2 e' hold t' ht'
      · have htime' := recorded_time (hrec e' (by rw [hes]; simp [hnew])) t' ht'
        omega

lemma filed_of_reachable {W : ℤ} {tariff : Tariff} (hdis : DisjointMethods tariff) {s : State}
    (h : Reachable (limiter W) (Reloads W tariff) s) :
    Guarded (Filed tariff) s.trace ∧ Guarded InOrder s.trace :=
  h.invariant ⟨guarded_nil, guarded_nil⟩
    fun _ _ _ hr hi hok hs => filed_step (loaded_of_reachable hdis hr) hok hs hi

/-! ## The bounds -/

/-- An admission is filed under the same reload as the stretch it is in. -/
lemma filed_in_stretch {tariff : Tariff} {trace pre seg post : List Event}
    (h : Guarded (Filed tariff) trace) (htrace : trace = pre ++ (seg ++ post))
    (hseg : Event.reconfigured ∉ seg) {k : ℕ} (hk : k < tariff.length)
    (hpos : 0 < tariff[k].limitPerMinute) {m : String} {inForce charged : Option ℕ} {now : ℤ}
    (he : Event.admitted m inForce charged now ∈ seg)
    (hpick : ofLimit tariff[k] m inForce = true) :
    ∃ r, reloads pre = r + 1 ∧ charged = some (r * tariff.length + k) := by
  obtain ⟨l, l', hsplit⟩ := List.append_of_mem he
  have hcut : trace = (pre ++ l) ++ .admitted m inForce charged now :: (l' ++ post) := by
    rw [htrace, hsplit]
    simp
  have hnone : Event.reconfigured ∉ l := by
    intro hmem
    exact hseg (by rw [hsplit]; exact List.mem_append_left _ hmem)
  have hevent := (h _ _ _ hcut).2 k hk (of_decide_eq_true hpick) hpos
  rw [reloads_append, reloads_eq_zero hnone, Nat.add_zero] at hevent
  exact hevent

/-- Between two reloads the calls of the methods of a group charge one object. -/
lemma admittedTimes_ofLimit {tariff : Tariff} {trace pre seg post : List Event}
    (h : Guarded (Filed tariff) trace) (htrace : trace = pre ++ (seg ++ post))
    (hseg : Event.reconfigured ∉ seg) {k : ℕ} (hk : k < tariff.length)
    (hpos : 0 < tariff[k].limitPerMinute) :
    admittedTimes (ofLimit tariff[k]) seg = [] ∨ ∃ r, reloads pre = r + 1 ∧
      (admittedTimes (ofLimit tariff[k]) seg).Sublist
        (admissions (marks (r * tariff.length + k) trace)) := by
  rcases Nat.eq_zero_or_pos (reloads pre) with hzero | hsome
  · left
    rw [admittedTimes, List.filterMap_eq_nil_iff]
    intro e he
    cases e with
    | reconfigured => rfl
    | opened g t => rfl
    | full m g t => rfl
    | admitted m inForce charged now =>
      simp only [ite_eq_right_iff]
      intro hpick
      obtain ⟨r, hr, -⟩ := filed_in_stretch h htrace hseg hk hpos he hpick
      omega
  · right
    obtain ⟨r, hr⟩ := Nat.exists_eq_succ_of_ne_zero hsome.ne'
    refine ⟨r, hr, ?_⟩
    have hsub : (admittedTimes (ofLimit tariff[k]) seg).Sublist
        (admissions (marks (r * tariff.length + k) seg)) := by
      refine admittedTimes_sublist fun m inForce charged now he hpick => ?_
      obtain ⟨r', hr', hch⟩ := filed_in_stretch h htrace hseg hk hpos he hpick
      obtain rfl : r' = r := by omega
      exact hch
    rw [htrace, marks_append, marks_append, admissions_append, admissions_append]
    exact (hsub.trans (List.sublist_append_left ..)).trans (List.sublist_append_right ..)

/-- The charges to an object come after everything before the reload that made it. -/
lemma charges_after {tariff : Tariff} {trace pre post : List Event}
    (h : Guarded (Filed tariff) trace) (hord : Guarded InOrder trace)
    (htrace : trace = pre ++ post) {r k : ℕ} (hk : k < tariff.length) (hpre : reloads pre ≤ r)
    {e : Event} {t : ℤ} (he : e ∈ pre) (ht : t ∈ e.time?) :
    ∀ a ∈ admissions (marks (r * tariff.length + k) trace), t ≤ a := by
  intro a ha
  obtain ⟨m, inForce, hmem⟩ := mem_admissions_marks ha
  obtain ⟨l, l', hsplit⟩ := List.append_of_mem hmem
  have hblock : reloads l = r + 1 := by
    rw [(h _ _ _ hsplit).1 _ rfl, Nat.mul_comm, Nat.mul_add_div (by omega),
      Nat.div_eq_of_lt hk, Nat.add_zero]
  have hpre' : pre <+: trace := ⟨post, htrace.symm⟩
  have hl : l <+: trace := ⟨_, hsplit.symm⟩
  rcases List.prefix_or_prefix_of_prefix hpre' hl with hpl | hlp
  · exact hord _ _ _ hsplit a rfl e (hpl.subset he) t ht
  · -- the charge is made after the reload, not before it
    have hle : reloads l ≤ reloads pre := hlp.sublist.count_le _
    omega

/-- A stretch with a reload, cut at the last one. -/
lemma exists_last_reload {seg : List Event} {n : ℕ} (h : reloads seg = n + 1) :
    ∃ seg₀ seg₁, seg = seg₀ ++ .reconfigured :: seg₁ ∧ Event.reconfigured ∉ seg₁ ∧
      reloads seg₀ = n := by
  have hmem : Event.reconfigured ∈ seg := List.count_pos_iff.mp (by rw [← reloads, h]; omega)
  obtain ⟨l, l', hsplit, hnone⟩ := List.eq_append_cons_of_mem (List.mem_reverse.mpr hmem)
  have hcut : seg = l'.reverse ++ .reconfigured :: l.reverse := by
    rw [← List.reverse_reverse seg, hsplit]
    simp
  have hnone' : Event.reconfigured ∉ l.reverse := by rwa [List.mem_reverse]
  refine ⟨l'.reverse, l.reverse, hcut, hnone', ?_⟩
  rw [hcut, reloads_append, reloads_cons, reloads_eq_zero hnone'] at h
  omega

section
variable {W : ℤ} {tariff : Tariff} {s : State} {pre seg post : List Event} {k : ℕ}

/-- A stretch without a reload keeps to the bound of one object; and to the limit itself, where
the interval starts before a reload that comes before the stretch. -/
lemma stretch_bounds (hdis : DisjointMethods tariff)
    (h : Reachable (limiter W) (Reloads W tariff) s) (htrace : s.trace = pre ++ (seg ++ post))
    (hseg : Event.reconfigured ∉ seg) (hk : k < tariff.length)
    (hpos : 0 < tariff[k].limitPerMinute) (t : ℤ) :
    (inInterval W t (admittedTimes (ofLimit tariff[k]) seg) : ℤ)
        ≤ 2 * tariff[k].limitPerMinute - 1 ∧
      ∀ pre₀ pre₁, pre = pre₀ ++ .reconfigured :: pre₁ →
        (∃ e ∈ pre₀, ∃ t' ∈ e.time?, t ≤ t') →
        (inInterval W t (admittedTimes (ofLimit tariff[k]) seg) : ℤ)
          ≤ tariff[k].limitPerMinute := by
  obtain ⟨hfiled, hord⟩ := filed_of_reachable hdis h
  rcases admittedTimes_ofLimit hfiled htrace hseg hk hpos with hnil | ⟨r, hr, hsub⟩
  · rw [hnil]
    simp only [inInterval, List.countP_nil, Nat.cast_zero]
    exact ⟨by omega, fun _ _ _ _ => hpos.le⟩
  · have htimed := timed_of_reachable (fun _ _ hok => hok.1) h (r * tariff.length + k)
    have hle : reloads pre ≤ reloads s.trace := by
      rw [htrace, reloads_append]
      omega
    have hlimit := (loaded_of_reachable hdis h).limits r (by omega) k hk
    have hcounter := Group.counter_limit (by rw [hlimit]; exact hpos)
    rw [hlimit] at hcounter
    have hmono : inInterval W t (admittedTimes (ofLimit tariff[k]) seg)
        ≤ inInterval W t (admissions (marks (r * tariff.length + k) s.trace)) :=
      hsub.countP_le
    constructor
    · have hbound := htimed.interval_le (by omega) t
      omega
    · rintro pre₀ pre₁ hpre ⟨e, he, t', ht', hle'⟩
      -- the object was made after the start of the interval
      have hcount : reloads pre = reloads pre₀ + (reloads pre₁ + 1) := by
        rw [hpre, reloads_append, reloads_cons]
      have hcut : s.trace = pre₀ ++ (.reconfigured :: pre₁ ++ (seg ++ post)) := by
        rw [htrace, hpre, List.append_assoc]
      have hafter := charges_after hfiled hord hcut hk (show reloads pre₀ ≤ r by omega) he ht'
      have hbound := htimed.interval_le_of_fresh fun a ha => hle'.trans (hafter a ha)
      omega

/-- A reload in front of a stretch grants one limit to an interval that reaches back over it, and
nothing to any other. -/
lemma reload_bounds {seg₀ seg₁ : List Event} (hdis : DisjointMethods tariff)
    (h : Reachable (limiter W) (Reloads W tariff) s)
    (htrace : s.trace = pre ++ (seg₀ ++ .reconfigured :: seg₁ ++ post))
    (hnone : Event.reconfigured ∉ seg₁) (hk : k < tariff.length)
    (hpos : 0 < tariff[k].limitPerMinute) (t : ℤ) :
    inInterval W t (admittedTimes (ofLimit tariff[k]) seg₀) = 0 ∧
        (inInterval W t (admittedTimes (ofLimit tariff[k]) seg₁) : ℤ)
          ≤ 2 * tariff[k].limitPerMinute - 1 ∨
      (inInterval W t (admittedTimes (ofLimit tariff[k]) seg₁) : ℤ)
        ≤ tariff[k].limitPerMinute := by
  have hcut : s.trace = (pre ++ seg₀ ++ [.reconfigured]) ++ (seg₁ ++ post) := by
    rw [htrace]
    simp
  obtain ⟨hone, hlater⟩ := stretch_bounds hdis h hcut hnone hk hpos t
  by_cases hin : ∃ a ∈ admittedTimes (ofLimit tariff[k]) seg₀, t ≤ a
  · right
    obtain ⟨a, ha, hta⟩ := hin
    obtain ⟨e, he, htime⟩ := mem_admittedTimes ha
    exact hlater (pre ++ seg₀) [] rfl ⟨e, List.mem_append_right _ he, a, htime, hta⟩
  · left
    exact ⟨inInterval_eq_zero fun a ha hta _ => hin ⟨a, ha, hta⟩, hone⟩

/-- **Each reload grants at most one more limit.** In every run that loads one tariff with
disjoint groups any number of times, for every group with a positive limit `L`, a stretch of the
run with `r` reloads in it holds at most `2 L - 1 + r L` admissions of the methods of the group in
a half-open interval of the length of the window: at most `2 L - 1` where no reload comes between
them. -/
theorem reload_limit_bounds (hdis : DisjointMethods tariff)
    (h : Reachable (limiter W) (Reloads W tariff) s) {ul : UnaryLimit} (hul : ul ∈ tariff)
    (hpos : 0 < ul.limitPerMinute) (htrace : s.trace = pre ++ (seg ++ post)) (t : ℤ) :
    (inInterval W t (admittedTimes (ofLimit ul) seg) : ℤ)
      ≤ 2 * ul.limitPerMinute - 1 + reloads seg * ul.limitPerMinute := by
  obtain ⟨k, hk, rfl⟩ := List.getElem_of_mem hul
  induction hn : reloads seg generalizing seg post with
  | zero =>
    have hnone : Event.reconfigured ∉ seg := List.count_eq_zero.mp hn
    have hbound := (stretch_bounds hdis h htrace hnone hk hpos t).1
    simpa using hbound
  | succ n ih =>
    -- the stretch before the last reload, and the one after it
    obtain ⟨seg₀, seg₁, hsplit, hnone, hn₀⟩ := exists_last_reload hn
    rw [hsplit] at htrace
    have hbefore := ih (by rw [htrace, List.append_assoc]) hn₀
    have hsum : inInterval W t (admittedTimes (ofLimit tariff[k]) seg)
        = inInterval W t (admittedTimes (ofLimit tariff[k]) seg₀)
          + inInterval W t (admittedTimes (ofLimit tariff[k]) seg₁) := by
      rw [hsplit, admittedTimes_append, inInterval_append]
      rfl
    have hmul : ((n + 1 : ℕ) : ℤ) * tariff[k].limitPerMinute
        = n * tariff[k].limitPerMinute + tariff[k].limitPerMinute := by
      push_cast
      ring
    have hnonneg : 0 ≤ (n : ℤ) * tariff[k].limitPerMinute := by positivity
    rw [hsum, hmul]
    push_cast
    rcases reload_bounds hdis h htrace hnone hk hpos t with ⟨hzero, hone⟩ | hone
    · rw [hzero, Nat.cast_zero]
      linarith
    · linarith

end

/-- A tariff that is loaded a second time while the window of its group is full. -/
theorem reload_limit_bounds_twice :
    ∃ s, Reachable (limiter 60) (Reloads 60 [⟨1, ["/m"]⟩]) s ∧
      s.trace = [.reconfigured, .opened 0 100, .admitted "m" (some 0) (some 0) 100,
        .full "m" 0 110, .reconfigured, .opened 1 120, .admitted "m" (some 1) (some 1) 120,
        .full "m" 1 130] ∧
      inInterval 60 100 (admittedTimes (ofLimit ⟨1, ["/m"]⟩) s.trace.tail) ≤ 2 := by
  obtain ⟨s, hs, hp⟩ := exists_reachable_of_run (limiter 60) (Reloads 60 [⟨1, ["/m"]⟩])
    (fun s => decide (s.trace = [.reconfigured, .opened 0 100,
      .admitted "m" (some 0) (some 0) 100, .full "m" 0 110, .reconfigured, .opened 1 120,
      .admitted "m" (some 1) (some 1) 120, .full "m" 1 130]))
    [.configure [⟨1, ["/m"]⟩], .tryAcquire "m" 100, .acquire 0 "m" 110, .configure [⟨1, ["/m"]⟩],
      .acquire 1 "m" 120, .tryAcquire "m" 130]
    (by decide +kernel)
  have htrace := of_decide_eq_true hp
  have hcut : s.trace = [.reconfigured] ++ (s.trace.tail ++ []) := by
    rw [htrace]
    rfl
  have hdis : DisjointMethods [⟨1, ["/m"]⟩] := by decide
  have hmem : (⟨1, ["/m"]⟩ : UnaryLimit) ∈ [⟨1, ["/m"]⟩] := List.mem_singleton_self _
  have hbound := reload_limit_bounds hdis hs hmem (by norm_num) hcut 100
  have hone : reloads s.trace.tail = 1 := by
    rw [htrace]
    decide
  rw [hone] at hbound
  simp only at hbound
  exact ⟨s, hs, htrace, by omega⟩

/-- A group with limit one lets two calls through at the same time, when its tariff is loaded
again between them. -/
theorem reload_grants_quota :
    (∃ s, Reachable (limiter 60) (Reloads 60 [⟨1, ["/m"]⟩]) s ∧
      s.trace = [.reconfigured, .opened 0 100, .admitted "m" (some 0) (some 0) 100,
        .reconfigured, .opened 1 100, .admitted "m" (some 1) (some 1) 100]) ∧
      ¬ ∀ (W : ℤ) (tariff : Tariff) (s : State), DisjointMethods tariff →
        Reachable (limiter W) (Reloads W tariff) s →
        ∀ ul ∈ tariff, 0 < ul.limitPerMinute → ∀ t,
          (inInterval W t (admittedTimes (ofLimit ul) s.trace) : ℤ)
            ≤ 2 * ul.limitPerMinute - 1 := by
  obtain ⟨s, hs, hp⟩ := exists_reachable_of_run (limiter 60) (Reloads 60 [⟨1, ["/m"]⟩])
    (fun s => decide (s.trace = [.reconfigured, .opened 0 100,
      .admitted "m" (some 0) (some 0) 100, .reconfigured, .opened 1 100,
      .admitted "m" (some 1) (some 1) 100]))
    [.configure [⟨1, ["/m"]⟩], .tryAcquire "m" 100, .configure [⟨1, ["/m"]⟩], .tryAcquire "m" 100]
    (by decide +kernel)
  have htrace := of_decide_eq_true hp
  refine ⟨⟨s, hs, htrace⟩, fun h => ?_⟩
  have hbound := h 60 [⟨1, ["/m"]⟩] s (by decide) hs ⟨1, ["/m"]⟩ (by simp) (by simp) 100
  rw [htrace] at hbound
  exact absurd hbound (by decide)

end RateLimiter
end TInvest
