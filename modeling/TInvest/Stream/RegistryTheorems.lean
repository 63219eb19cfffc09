import TInvest.Lib.Separated
import TInvest.Lib.MapFold
import TInvest.Stream.Registry

/-!
# What the registry holds

* `Target.key_inj` — keys separate targets, for every id string;
* `keysOf_single`, `actionOf_single`, `withoutInstruments_single` — the three five-way
  switches of the source agree on a one-instrument request;
* `lookup_recordRequest` — what one accepted request does to one target;
* `registry_last_writer_wins` — a whole history: the last deciding request wins;
* `selfDescribing_recordAll`, `replay_rebuilds`, `remember_split` — entries describe
  themselves, so replaying them in any order rebuilds the registry.
-/

namespace TInvest

open Pb
open Lib.Separated
open Lib.MapFold

/-! ## Keys -/

/-- A request's keys are the keys of its targets. -/
lemma keysOf_eq (r : MarketDataRequest) : keysOf r = (targetsOf r).map Target.key := by
  cases r <;> simp [keysOf, targetsOf, Target.key]

lemma bar_notMem_repr (n : ℤ) : '|' ∉ (Int.repr n).toList := by
  -- a number is printed with digits and possibly a minus sign
  have hdigits : ∀ m : ℕ, '|' ∉ Nat.toDigits 10 m := by
    intro m hmem
    exact absurd (Nat.isDigit_of_mem_toDigits (by norm_num) (by norm_num) hmem) (by decide)
  rw [Int.repr_eq_if]
  split <;> simp [hdigits]

/-- A kind is the text before the first bar. -/
lemma kind_inj {kind kind' : List Char} {rest rest' : List Char} (h : '|' ∉ kind)
    (h' : '|' ∉ kind') (heq : kind ++ '|' :: rest = kind' ++ '|' :: rest') :
    kind = kind' ∧ rest = rest' :=
  (append_cons_inj_left h h').mp heq

/-- A number at the end of a key is the text after its last bar. -/
lemma number_inj {front front' : List Char} {m n : ℤ}
    (heq : front ++ '|' :: (Int.repr m).toList = front' ++ '|' :: (Int.repr n).toList) :
    front = front' ∧ m = n := by
  obtain ⟨hfront, hrepr⟩ :=
    (append_cons_inj_right (bar_notMem_repr m) (bar_notMem_repr n)).mp heq
  exact ⟨hfront, Int.repr_injective (String.toList_inj.mp hrepr)⟩

/-- The characters of a key, split after its kind. -/
lemma Target.key_toList (t : Target) :
    t.key.toList = match t with
      | .candles id interval =>
        "candles".toList ++ '|' :: (id.toList ++ '|' :: (Int.repr interval.value.toInt).toList)
      | .orderBook id depth orderBookType =>
        "orderbook".toList ++ '|' :: (id.toList ++ '|' :: (Int.repr depth.toInt).toList
          ++ '|' :: (Int.repr orderBookType.value.toInt).toList)
      | .trades id => "trades".toList ++ '|' :: id.toList
      | .info id => "info".toList ++ '|' :: id.toList
      | .lastPrice id => "last_price".toList ++ '|' :: id.toList := by
  cases t <;> simp [Target.key]

/-- **Keys separate targets**, whatever the ids contain. -/
lemma Target.key_inj {t t' : Target} (h : t.key = t'.key) : t = t' := by
  have hl := congrArg String.toList h
  rw [Target.key_toList, Target.key_toList] at hl
  cases t <;> cases t' <;> simp only at hl
  -- equal kinds: cut off the kind, then the numbers from the end
  case candles.candles id interval id' interval' =>
    obtain ⟨-, hrest⟩ := kind_inj (by decide) (by decide) hl
    obtain ⟨hid, hint⟩ := number_inj hrest
    rw [String.toList_inj.mp hid, show interval = interval' from by
      cases interval; cases interval'; simpa [Int32.toInt_inj] using hint]
  case orderBook.orderBook id depth typ id' depth' typ' =>
    obtain ⟨-, hrest⟩ := kind_inj (by decide) (by decide) hl
    obtain ⟨hfront, htyp⟩ := number_inj hrest
    obtain ⟨hid, hdepth⟩ := number_inj hfront
    rw [String.toList_inj.mp hid, Int32.toInt_inj.mp hdepth, show typ = typ' from by
      cases typ; cases typ'; simpa [Int32.toInt_inj] using htyp]
  case trades.trades id id' =>
    rw [String.toList_inj.mp (kind_inj (by decide) (by decide) hl).2]
  case info.info id id' =>
    rw [String.toList_inj.mp (kind_inj (by decide) (by decide) hl).2]
  case lastPrice.lastPrice id id' =>
    rw [String.toList_inj.mp (kind_inj (by decide) (by decide) hl).2]
  -- different kinds differ before the first bar
  all_goals exact absurd (kind_inj (by decide) (by decide) hl).1 (by decide)

lemma Target.key_eq_iff (t t' : Target) : t.key = t'.key ↔ t = t' :=
  ⟨Target.key_inj, fun h => h ▸ rfl⟩

lemma key_mem_keysOf_iff (t : Target) (r : MarketDataRequest) :
    t.key ∈ keysOf r ↔ t ∈ targetsOf r := by
  rw [keysOf_eq, List.mem_map]
  constructor
  · intro ⟨t', hmem, hkey⟩
    rwa [← Target.key_inj hkey]
  · intro h
    exact ⟨t, h, rfl⟩

/-- Two entries share a key exactly when they have the same target. -/
lemma keys_eq_iff {r r' : MarketDataRequest} {i i' : ℕ} {key key' : String}
    (h : (keysOf r)[i]? = some key) (h' : (keysOf r')[i']? = some key') :
    key = key' ↔ (targetsOf r)[i]? = (targetsOf r')[i']? := by
  rw [keysOf_eq, List.getElem?_map, Option.map_eq_some_iff] at h h'
  obtain ⟨t, ht, rfl⟩ := h
  obtain ⟨t', ht', rfl⟩ := h'
  rw [ht, ht', Option.some_inj, Target.key_eq_iff]

/-- The last occurrence of a target is the last occurrence of its key. -/
lemma isLastIndex_key {t : Target} {r : MarketDataRequest} {j : ℕ}
    (h : IsLastIndex (targetsOf r) t j) : IsLastIndex (keysOf r) t.key j := by
  rw [keysOf_eq]
  refine ⟨by rw [List.getElem?_map, h.1]; rfl, ?_⟩
  intro i hi hsome
  rw [List.getElem?_map, Option.map_eq_some_iff] at hsome
  obtain ⟨t', ht', hkey⟩ := hsome
  rw [Target.key_inj hkey] at ht'
  exact h.2 i hi ht'

/-! ## One-instrument requests -/

/-- The key of the `i`-th one-instrument request is the `i`-th key. -/
lemma keysOf_single (r : MarketDataRequest) (i : ℕ) :
    keysOf (single r i) = (keysOf r)[i]?.toList := by
  cases r <;> simp [single, keysOf, Option.toList_map]

lemma targetsOf_single (r : MarketDataRequest) (i : ℕ) :
    targetsOf (single r i) = (targetsOf r)[i]?.toList := by
  cases r <;> simp [single, targetsOf, Option.toList_map]

lemma actionOf_single (r : MarketDataRequest) (i : ℕ) : actionOf (single r i) = actionOf r := by
  cases r <;> rfl

/-- Splitting keeps the kind, the action and the options. -/
lemma withoutInstruments_single {r : MarketDataRequest} {i : ℕ} (h : i < (keysOf r).length) :
    withoutInstruments (single r i) = withoutInstruments r := by
  cases r <;> first | rfl | exact absurd h (by simp [keysOf])

/-- A request with one key is its own one-instrument request. -/
lemma single_zero {r : MarketDataRequest} {key : String} (h : keysOf r = [key]) :
    single r 0 = r := by
  -- one key means one instrument, whatever its kind
  have hone : ∀ {β : Type} {l : List β} {f : β → String}, l.map f = [key] →
      l[0]?.toList = l := by
    intro β l f hl
    obtain ⟨b, rfl, -⟩ := List.map_eq_singleton_iff.mp hl
    rfl
  cases r with
  | subscribeCandlesRequest p => simp only [single, hone h]
  | subscribeOrderBookRequest p => simp only [single, hone h]
  | subscribeTradesRequest p => simp only [single, hone h]
  | subscribeInfoRequest p => simp only [single, hone h]
  | subscribeLastPriceRequest p => simp only [single, hone h]
  | getMySubscriptions => exact absurd h (by simp [keysOf])
  | ping p => exact absurd h (by simp [keysOf])
  | pingSettings p => exact absurd h (by simp [keysOf])
  | notSet => exact absurd h (by simp [keysOf])

/-- Remembering a request with one key is one insertion. -/
lemma rememberLocked_of_keysOf {r : MarketDataRequest} {key : String} (reg : Registry)
    (h : keysOf r = [key]) : rememberLocked reg r = reg.insert key r := by
  unfold rememberLocked
  rw [h]
  simp [single_zero h]

/-! ## One accepted request -/

/-- `r` decides about `t`: it mentions `t` and its action is one `send` acts on. -/
def Decides (t : Target) (r : MarketDataRequest) : Prop :=
  t ∈ targetsOf r ∧ (actionOf r = .subscribe ∨ actionOf r = .unsubscribe)

instance (t : Target) (r : MarketDataRequest) : Decidable (Decides t r) :=
  inferInstanceAs (Decidable (_ ∧ _))

lemma lookup_remember {t : Target} {r : MarketDataRequest} (reg : Registry)
    (h : t ∈ targetsOf r) :
    ∃ j, IsLastIndex (targetsOf r) t j ∧ (rememberLocked reg r)[t.key]? = some (single r j) := by
  obtain ⟨j, hj⟩ := exists_isLastIndex h
  exact ⟨j, hj, getElem?_insertEach_of_last reg (single r) (isLastIndex_key hj)⟩

lemma lookup_remember_of_notMem {key : String} {r : MarketDataRequest} (reg : Registry)
    (h : key ∉ keysOf r) : (rememberLocked reg r)[key]? = reg[key]? :=
  getElem?_insertEach_of_notMem reg (single r) h

lemma lookup_forget (key : String) (r : MarketDataRequest) (reg : Registry) :
    (forgetLocked reg r)[key]? = if key ∈ keysOf r then none else reg[key]? :=
  getElem?_eraseEach reg (keysOf r) key

/-- What one accepted request does to one target: a SUBSCRIBE writes the one-instrument
request of the target's last occurrence, an UNSUBSCRIBE removes the target, and a request
that does not decide about it leaves it alone. -/
lemma lookup_recordRequest (reg : Registry) (t : Target) (r : MarketDataRequest) :
    (Decides t r → actionOf r = .subscribe →
      ∃ j, IsLastIndex (targetsOf r) t j ∧
        (recordRequest reg r)[t.key]? = some (single r j)) ∧
    (Decides t r → actionOf r ≠ .subscribe → (recordRequest reg r)[t.key]? = none) ∧
    (¬ Decides t r → (recordRequest reg r)[t.key]? = reg[t.key]?) := by
  unfold recordRequest
  refine ⟨?_, ?_, ?_⟩
  · intro hd hs
    rw [if_pos hs]
    exact lookup_remember reg hd.1
  · intro hd hs
    have hu : actionOf r = .unsubscribe := hd.2.resolve_left hs
    rw [if_neg hs, if_pos hu, lookup_forget, if_pos ((key_mem_keysOf_iff t r).mpr hd.1)]
  · intro hd
    split
    · next hs =>
      apply lookup_remember_of_notMem
      rw [key_mem_keysOf_iff]
      exact fun hmem => hd ⟨hmem, Or.inl hs⟩
    · split
      · next hu =>
        rw [lookup_forget, if_neg]
        rw [key_mem_keysOf_iff]
        exact fun hmem => hd ⟨hmem, Or.inr hu⟩
      · rfl

/-- A key that one accepted request adds is the key of one of its targets. -/
lemma key_of_recordRequest {reg : Registry} {r : MarketDataRequest} {key : String}
    (h : (recordRequest reg r)[key]?.isSome) :
    reg[key]?.isSome ∨ ∃ t : Target, key = t.key := by
  by_cases hmem : key ∈ keysOf r
  · rw [keysOf_eq, List.mem_map] at hmem
    obtain ⟨t, -, ht⟩ := hmem
    exact Or.inr ⟨t, ht.symm⟩
  · -- a key the request does not mention is left alone
    left
    unfold recordRequest at h
    split at h
    · rwa [lookup_remember_of_notMem reg hmem] at h
    · split at h
      · rwa [lookup_forget, if_neg hmem] at h
      · exact h

/-! ## A history of accepted requests -/

/-- The registry after a history of requests accepted with `remember = true`. -/
def recordAll (history : List MarketDataRequest) : Registry := history.foldl recordRequest ∅

/-- The last request of a history that decides about a target. -/
def lastDeciding (history : List MarketDataRequest) (t : Target) : Option MarketDataRequest :=
  (history.filter (fun r => decide (Decides t r))).getLast?

lemma recordAll_concat (history : List MarketDataRequest) (r : MarketDataRequest) :
    recordAll (history ++ [r]) = recordRequest (recordAll history) r := by
  unfold recordAll
  rw [List.foldl_append]
  rfl

lemma lastDeciding_concat (history : List MarketDataRequest) (r : MarketDataRequest)
    (t : Target) :
    lastDeciding (history ++ [r]) t
      = if Decides t r then some r else lastDeciding history t := by
  unfold lastDeciding
  rw [List.filter_append]
  split
  · next h => simp [h]
  · next h => simp [h]

/-- What the registry says about one target after a history. -/
def LastWriterWins (reg : Registry) (history : List MarketDataRequest) : Prop :=
  (∀ t : Target,
    (reg[t.key]?.isSome ↔ ∃ r, lastDeciding history t = some r ∧ actionOf r = .subscribe) ∧
    ∀ r, lastDeciding history t = some r → actionOf r = .subscribe →
      ∃ j, IsLastIndex (targetsOf r) t j ∧ reg[t.key]? = some (single r j)) ∧
  ∀ key, reg[key]?.isSome → ∃ t : Target, key = t.key

/-- **Last writer wins**, for every history. -/
lemma registry_last_writer_wins (history : List MarketDataRequest) :
    LastWriterWins (recordAll history) history := by
  induction history using List.reverseRecOn with
  | nil =>
    refine ⟨?_, ?_⟩
    · intro t
      simp [recordAll, lastDeciding]
    · intro key h
      simp [recordAll] at h
  | append_singleton history r ih =>
    rw [recordAll_concat]
    refine ⟨?_, ?_⟩
    · intro t
      obtain ⟨hsub, hunsub, hother⟩ := lookup_recordRequest (recordAll history) t r
      rw [lastDeciding_concat]
      by_cases hd : Decides t r
      · rw [if_pos hd]
        by_cases hs : actionOf r = .subscribe
        · -- a subscribe decides: the entry is the one just written
          obtain ⟨j, hj, hval⟩ := hsub hd hs
          refine ⟨iff_of_true (by rw [hval]; rfl) ⟨r, rfl, hs⟩, ?_⟩
          intro r' hr' _
          obtain rfl := Option.some.inj hr'
          exact ⟨j, hj, hval⟩
        · -- an unsubscribe decides: there is no entry
          rw [hunsub hd hs]
          refine ⟨iff_of_false (by simp) ?_, ?_⟩
          · intro ⟨r', hr', hs'⟩
            obtain rfl := Option.some.inj hr'
            exact hs hs'
          · intro r' hr' hs'
            obtain rfl := Option.some.inj hr'
            exact absurd hs' hs
      · -- the request says nothing about `t`: the history before it decides
        rw [if_neg hd, hother hd]
        exact ih.1 t
    · intro key h
      rcases key_of_recordRequest h with h | h
      · exact ih.2 key h
      · exact h

/-! ## Entries describe themselves -/

/-- Every entry is a one-instrument SUBSCRIBE request stored under its own key. -/
def SelfDescribing (reg : Registry) : Prop :=
  ∀ key r, reg[key]? = some r → keysOf r = [key] ∧ actionOf r = .subscribe

lemma selfDescribing_recordRequest {reg : Registry} (h : SelfDescribing reg)
    (r : MarketDataRequest) : SelfDescribing (recordRequest reg r) := by
  intro key e he
  by_cases hmem : key ∈ keysOf r
  · rw [keysOf_eq, List.mem_map] at hmem
    obtain ⟨t, ht, rfl⟩ := hmem
    unfold recordRequest at he
    split at he
    · -- the entry is one this request wrote
      next hs =>
      obtain ⟨j, hj, hval⟩ := lookup_remember reg ht
      rw [hval] at he
      obtain rfl := Option.some.inj he
      refine ⟨?_, by rw [actionOf_single, hs]⟩
      rw [keysOf_single, (isLastIndex_key hj).1]
      rfl
    · split at he
      · rw [lookup_forget, if_pos ((key_mem_keysOf_iff t r).mpr ht)] at he
        exact absurd he (by simp)
      · exact h _ e he
  · apply h key e
    unfold recordRequest at he
    split at he
    · rwa [lookup_remember_of_notMem reg hmem] at he
    · split at he
      · rwa [lookup_forget, if_neg hmem] at he
      · exact he

lemma selfDescribing_recordAll (history : List MarketDataRequest) :
    SelfDescribing (recordAll history) := by
  induction history using List.reverseRecOn with
  | nil =>
    intro key r h
    simp [recordAll] at h
  | append_singleton history r ih =>
    rw [recordAll_concat]
    exact selfDescribing_recordRequest ih r

/-- The key a one-instrument request is stored under. -/
def ownKey (r : MarketDataRequest) : String := (keysOf r).headD ""

lemma keysOf_of_mem_replay {reg : Registry} (h : SelfDescribing reg) {r : MarketDataRequest}
    (hr : r ∈ replay reg) : keysOf r = [ownKey r] := by
  unfold replay at hr
  rw [List.mem_map] at hr
  obtain ⟨⟨key, r'⟩, hmem, rfl⟩ := hr
  rw [Std.ExtTreeMap.mem_toList_iff_getElem?_eq_some] at hmem
  have hkey := (h key r' hmem).1
  rw [ownKey, hkey]
  rfl

/-- Tagging the replayed requests with their own keys gives the entries back. -/
lemma replay_entries {reg : Registry} (h : SelfDescribing reg) :
    (replay reg).map (fun r => (ownKey r, r)) = reg.toList := by
  unfold replay
  rw [List.map_map]
  conv_rhs => rw [← List.map_id reg.toList]
  apply List.map_congr_left
  intro ⟨key, r⟩ hmem
  rw [Std.ExtTreeMap.mem_toList_iff_getElem?_eq_some] at hmem
  show ((keysOf r).headD "", r) = (key, r)
  rw [(h key r hmem).1]
  rfl

/-- Remembering one-instrument requests one by one inserts them one by one. -/
lemma foldl_rememberLocked {queue : List MarketDataRequest}
    (h : ∀ r ∈ queue, keysOf r = [ownKey r]) (reg : Registry) :
    queue.foldl rememberLocked reg = insertAll reg (queue.map fun r => (ownKey r, r)) := by
  unfold insertAll
  rw [List.foldl_map]
  apply List.foldl_ext
  intro reg' r hr
  exact rememberLocked_of_keysOf reg' (h r hr)

/-- **Replay.** Remembering the replayed requests, in any order, rebuilds the registry. -/
lemma replay_rebuilds {reg : Registry} (h : SelfDescribing reg) {queue : List MarketDataRequest}
    (hq : queue.Perm (replay reg)) : queue.foldl rememberLocked ∅ = reg := by
  rw [foldl_rememberLocked (fun r hr => keysOf_of_mem_replay h (hq.mem_iff.mp hr))]
  apply insertAll_of_perm_toList
  rw [← replay_entries h]
  exact hq.map _

/-- **Splitting.** Remembering a request is remembering its one-instrument requests in
order. -/
lemma remember_split (reg : Registry) (q : MarketDataRequest) :
    rememberLocked reg q
      = ((List.range (keysOf q).length).map (single q)).foldl rememberLocked reg := by
  have hrange : List.range (keysOf q).length = (keysOf q).zipIdx.map Prod.snd := by
    rw [List.zipIdx_map_snd, List.range_eq_range']
  rw [hrange, List.map_map, List.foldl_map]
  unfold rememberLocked
  apply List.foldl_ext
  -- each one-instrument request has one key, the one the loop writes
  intro reg' ⟨key, i⟩ hmem
  have hkey : (keysOf q)[i]? = some key := List.mem_zipIdx_iff_getElem?.mp hmem
  have hsingle : keysOf (single q i) = [key] := by
    rw [keysOf_single, hkey]
    rfl
  exact (rememberLocked_of_keysOf reg' hsingle).symm

end TInvest
