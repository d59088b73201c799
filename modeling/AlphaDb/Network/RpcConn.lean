import AlphaDb.Lib.Trace

/-! Matching replies to calls (`network/rpc/rpc_conn`): `call`, `cancel` and the handler of
`on_read` as interleaved steps. -/
namespace AlphaDb.Network

open Trace

/-- How far a call is: `call` takes an id, sends the request, and then registers the callback. -/
inductive CallPhase
  | idle
  | tookId
  | sent
  | registered
  deriving DecidableEq, Repr

/-- How far the reply to a call is: the handler looks for the id, takes the function of call
`callback` out of the map, and then runs it. -/
inductive ReplyPhase
  | awaited
  | found
  | took (callback : ℕ)
  | done
  deriving DecidableEq, Repr

/-- Calls are numbered from the first one on; `rpcId` counts them. `futures` has for an id the call
whose callback is stored. `ran` has for each callback that ran the reply it ran for, and
`undefined` says that an iterator of an erased element was used. -/
structure RpcRun where
  rpcId : ℕ
  call : ℕ → CallPhase
  reply : ℕ → ReplyPhase
  futures : ℕ → Option ℕ
  cancelled : ℕ → Bool
  ran : List (ℕ × ℕ)
  undefined : Bool

inductive RpcStep
  | takeId
  | marshal (n : ℕ)
  | register (n : ℕ)
  | cancel (n : ℕ)
  | find (n : ℕ)
  | take (n : ℕ)
  | func (n : ℕ)
  deriving DecidableEq, Repr

namespace RpcRun

variable {r q : RpcRun} {a : RpcStep} {n : ℕ}

def init : RpcRun where
  rpcId := 0
  call := fun _ => .idle
  reply := fun _ => .awaited
  futures := fun _ => none
  cancelled := fun _ => false
  ran := []
  undefined := false

/-- The `rpc_id_t` of a call. -/
def key (n : ℕ) : ℕ := n % 2 ^ 64

def setCall (r : RpcRun) (n : ℕ) (c : CallPhase) : RpcRun :=
  { r with call := Function.update r.call n c }

def setReply (r : RpcRun) (n : ℕ) (p : ReplyPhase) : RpcRun :=
  { r with reply := Function.update r.reply n p }

def setFutures (r : RpcRun) (id : ℕ) (f : Option ℕ) : RpcRun :=
  { r with futures := Function.update r.futures id f }

/-- One step. `cancel` is of a call by its id; a call counts as cancelled if its callback has not
run by then. The server answers a request once, in any order. -/
def step (r : RpcRun) : RpcStep → Option RpcRun
  | .takeId => some { r.setCall r.rpcId .tookId with rpcId := r.rpcId + 1 }
  | .marshal n => if r.call n = .tookId then some (r.setCall n .sent) else none
  | .register n =>
    if r.call n = .sent then
      let r := r.setCall n .registered
      some (if r.futures (key n) = none then r.setFutures (key n) (some n) else r)
    else none
  | .cancel n =>
    let cancelled := r.cancelled n || !r.ran.any (·.2 = n)
    some { r.setFutures (key n) none with cancelled := Function.update r.cancelled n cancelled }
  | .find n =>
    if (r.call n = .sent ∨ r.call n = .registered) ∧ r.reply n = .awaited then
      some (r.setReply n (if r.futures (key n) = none then .done else .found))
    else none
  | .take n =>
    if r.reply n = .found then
      match r.futures (key n) with
      | some c => some ((r.setFutures (key n) none).setReply n (.took c))
      | none => some { r.setReply n .done with undefined := true }
    else none
  | .func n =>
    match r.reply n with
    | .took c => some { r.setReply n .done with ran := (n, c) :: r.ran }
    | _ => none

/-- Before a step: a reply comes only after the callback of its call is registered; a call is
cancelled only when it has returned and no handler is between looking for its id and running its
callback; and ids have not been used up. -/
def InOrder (r : RpcRun) : RpcStep → Prop
  | .takeId => r.rpcId < 2 ^ 64
  | .find n => r.call n = .registered
  | .cancel n => r.call n = .registered ∧ (r.reply n = .awaited ∨ r.reply n = .done)
  | .marshal _ | .register _ | .take _ | .func _ => True

instance : ∀ (r : RpcRun) (a : RpcStep), Decidable (r.InOrder a)
  | _, .takeId => inferInstanceAs (Decidable (_ < _))
  | _, .find _ => inferInstanceAs (Decidable (_ = _))
  | _, .cancel _ => inferInstanceAs (Decidable (_ ∧ _))
  | _, .marshal _ | _, .register _ | _, .take _ | _, .func _ => inferInstanceAs (Decidable True)

/-- The reply has been taken up: its callback was taken out of `futures_`, or there was none. -/
def Answered (r : RpcRun) (n : ℕ) : Prop := r.reply n ≠ .awaited ∧ r.reply n ≠ .found

instance (r : RpcRun) (n : ℕ) : Decidable (r.Answered n) := inferInstanceAs (Decidable (_ ∧ _))

/-- What holds of the callbacks and of `futures_` when replies are matched to calls: the handler of
a reply ends with running the callback of its call, unless that was cancelled, and no other one. -/
structure RepliesMatched (r : RpcRun) : Prop where
  once : ∀ n, r.reply n = .done → r.cancelled n = false → r.ran.filter (·.1 = n) = [(n, n)]
  completes : ∀ n, r.reply n ≠ .awaited → r.reply n ≠ .done →
    ∃ xs q, xs <:+ [.take n, .func n] ∧ exec step r xs = some q ∧ q.ran = (n, n) :: r.ran
  own : ∀ x ∈ r.ran, x.2 = x.1 ∧ r.cancelled x.2 = false
  futures : (∀ n, r.call n ≠ .tookId ∧ r.call n ≠ .sent) → ∀ id n,
    r.futures id = some n ↔
      id = key n ∧ r.call n = .registered ∧ ¬ r.Answered n ∧ r.cancelled n = false
  defined : r.undefined = false

/-- Where call `n` stands, in all the places that know of it. -/
structure CallTracked (r : RpcRun) (n : ℕ) : Prop where
  futures : r.futures n =
    if r.call n = .registered ∧ ¬ r.Answered n ∧ r.cancelled n = false then some n else none
  early : r.call n ≠ .registered → r.reply n = .awaited ∧ r.cancelled n = false
  found : r.reply n = .found → r.cancelled n = false
  took : ∀ c, r.reply n = .took c → c = n ∧ r.cancelled n = false
  ran : r.ran.filter (·.1 = n) =
    if r.reply n = .done ∧ r.cancelled n = false then [(n, n)] else []

structure Tracked (r : RpcRun) : Prop where
  bound : r.rpcId ≤ 2 ^ 64
  fresh : ∀ n, r.rpcId ≤ n → r.call n = .idle
  calls : ∀ n, CallTracked r n
  defined : r.undefined = false

/-- A step at another call leaves a call alone. -/
theorem CallTracked.congr (h : CallTracked r n) (hcall : q.call n = r.call n)
    (hreply : q.reply n = r.reply n) (hfutures : q.futures n = r.futures n)
    (hcancelled : q.cancelled n = r.cancelled n)
    (hran : q.ran.filter (·.1 = n) = r.ran.filter (·.1 = n)) : CallTracked q n := by
  have hans : q.Answered n ↔ r.Answered n := by rw [Answered, Answered, hreply]
  refine ⟨?_, ?_, ?_, ?_, ?_⟩
  · simp only [hfutures, hcall, hans, hcancelled]
    exact h.futures
  · rw [hcall, hreply, hcancelled]
    exact h.early
  · rw [hreply, hcancelled]
    exact h.found
  · rw [hreply, hcancelled]
    exact h.took
  · rw [hran, hreply, hcancelled]
    exact h.ran

/-- A callback ran for its own call, whose reply is done and which was not cancelled. -/
theorem Tracked.of_mem_ran (h : Tracked r) {x : ℕ × ℕ} (hx : x ∈ r.ran) :
    x.2 = x.1 ∧ r.reply x.1 = .done ∧ r.cancelled x.1 = false := by
  have hmem : x ∈ r.ran.filter (·.1 = x.1) := List.mem_filter.mpr ⟨hx, by simp⟩
  rw [(h.calls x.1).ran] at hmem
  split at hmem
  · next hdone =>
    have heq := List.mem_singleton.mp hmem
    exact ⟨congrArg Prod.snd heq, hdone⟩
  · cases hmem

theorem Tracked.any_ran (h : Tracked r) (n : ℕ) :
    r.ran.any (·.2 = n) = true ↔ r.reply n = .done ∧ r.cancelled n = false := by
  constructor
  · intro hany
    obtain ⟨x, hx, hn⟩ := List.any_eq_true.mp hany
    obtain ⟨heq, hdone⟩ := h.of_mem_ran hx
    rwa [← heq, of_decide_eq_true hn] at hdone
  · intro hdone
    have hran := (h.calls n).ran
    rw [if_pos hdone] at hran
    have hmem : (n, n) ∈ r.ran.filter (·.1 = n) := hran ▸ List.mem_singleton_self _
    exact List.any_eq_true.mpr ⟨(n, n), (List.mem_filter.mp hmem).1, by simp⟩

theorem Tracked.key_eq (h : Tracked r) (hn : r.call n ≠ .idle) : key n = n := by
  have hlt : n < r.rpcId := by
    by_contra hge
    exact hn (h.fresh n (not_lt.mp hge))
  exact Nat.mod_eq_of_lt (lt_of_lt_of_le hlt h.bound)

theorem init_tracked : Tracked init := by
  refine ⟨by decide, fun _ _ => rfl, fun n => ⟨rfl, ?_, ?_, ?_, rfl⟩, rfl⟩
  · intro _
    exact ⟨rfl, rfl⟩
  · intro _
    rfl
  · intro c hc
    cases hc

/-- A call goes on without being registered. -/
theorem CallTracked.setCall (h : CallTracked r n) {c : CallPhase} (hr : r.call n ≠ .registered)
    (hc : c ≠ .registered) : CallTracked (r.setCall n c) n := by
  have hcall : (r.setCall n c).call n = c := Function.update_self ..
  have hnone : r.futures n = none := by simp [h.futures, hr]
  refine ⟨?_, fun _ => h.early hr, h.found, h.took, h.ran⟩
  show r.futures n = _
  simp [hnone, hcall, hc]

theorem Tracked.setCall (h : Tracked r) {c : CallPhase} (hi : r.call n ≠ .idle)
    (hr : r.call n ≠ .registered) (hc : c ≠ .registered) : Tracked (r.setCall n c) := by
  refine ⟨h.bound, ?_, ?_, h.defined⟩
  · intro m hm
    have hne : m ≠ n := by
      rintro rfl
      exact hi (h.fresh m hm)
    exact (Function.update_of_ne hne ..).trans (h.fresh m hm)
  · intro m
    by_cases hm : m = n
    · rw [hm]
      exact (h.calls n).setCall hr hc
    · exact (h.calls m).congr (Function.update_of_ne hm ..) rfl rfl rfl rfl

theorem Tracked.takeId (h : Tracked r) (hid : r.rpcId < 2 ^ 64)
    (hs : r.step .takeId = some q) : Tracked q := by
  obtain rfl := Option.some.inj hs
  have hidle := h.fresh r.rpcId le_rfl
  refine ⟨hid, ?_, ?_, h.defined⟩
  · intro n hn
    have hne : n ≠ r.rpcId := Nat.ne_of_gt hn
    exact (Function.update_of_ne hne ..).trans (h.fresh n (Nat.le_of_succ_le hn))
  · intro n
    by_cases hn : n = r.rpcId
    · rw [hn]
      have hset := (h.calls r.rpcId).setCall (c := .tookId) (by simp [hidle]) (by simp)
      exact hset.congr rfl rfl rfl rfl rfl
    · exact (h.calls n).congr (Function.update_of_ne hn ..) rfl rfl rfl rfl

theorem Tracked.register (h : Tracked r) (hs : r.step (.register n) = some q) : Tracked q := by
  simp only [step] at hs
  split at hs
  · rename_i hsent
    have hkey := h.key_eq (n := n) (by simp [hsent])
    have hcall := h.calls n
    obtain ⟨hawait, hcancel⟩ := hcall.early (by simp [hsent])
    have hnone : r.futures n = none := by simp [hcall.futures, hsent]
    have hempty : (r.setCall n .registered).futures (key n) = none := by
      rw [hkey]
      exact hnone
    rw [if_pos hempty, hkey] at hs
    obtain rfl := Option.some.inj hs
    refine ⟨h.bound, ?_, ?_, h.defined⟩
    · intro m hm
      have hne : m ≠ n := by
        rintro rfl
        simp [h.fresh m hm] at hsent
      exact (Function.update_of_ne hne ..).trans (h.fresh m hm)
    · intro m
      by_cases hm : m = n
      · subst hm
        refine ⟨?_, ?_, hcall.found, hcall.took, hcall.ran⟩
        · simp [setFutures, RpcRun.setCall, Answered, hawait, hcancel]
        · intro hne
          simp [setFutures, RpcRun.setCall] at hne
      · exact (h.calls m).congr (Function.update_of_ne hm ..) rfl (Function.update_of_ne hm ..)
          rfl rfl
  · cases hs

theorem Tracked.cancel (h : Tracked r) (hreg : r.call n = .registered)
    (hidle : r.reply n = .awaited ∨ r.reply n = .done) (hs : r.step (.cancel n) = some q) :
    Tracked q := by
  obtain rfl := Option.some.inj hs
  have hkey := h.key_eq (n := n) (by simp [hreg])
  have hran := (h.calls n).ran
  -- the callback has run exactly if the reply is done and the call was not cancelled before
  have hcancelled : (r.cancelled n || !r.ran.any (·.2 = n)) = false ↔
      r.reply n = .done ∧ r.cancelled n = false := by
    rw [← h.any_ran n]
    cases hc : r.cancelled n
    · simp
    · have hno := (h.any_ran n).not.mpr (by simp [hc])
      simpa using hno
  refine ⟨h.bound, h.fresh, ?_, h.defined⟩
  intro m
  by_cases hm : m = n
  · subst hm
    refine ⟨?_, fun hne => absurd hreg hne, ?_, ?_, ?_⟩
    · rcases hidle with hidle | hidle
      · simp [setFutures, hkey, hcancelled, hidle]
      · simp [setFutures, hkey, Answered, hidle]
    · intro hfound
      rcases hidle with hidle | hidle <;> cases hidle.symm.trans hfound
    · intro c htook
      rcases hidle with hidle | hidle <;> cases hidle.symm.trans htook
    · simpa only [setFutures, Function.update_self, hcancelled, and_self_left] using hran
  · exact (h.calls m).congr rfl rfl (Function.update_of_ne (hkey.symm ▸ hm) ..)
      (Function.update_of_ne hm ..) rfl

/-- The reply of a registered call goes on. -/
theorem Tracked.setReply (h : Tracked r) {p : ReplyPhase} (hcall : CallTracked (r.setReply n p) n) :
    Tracked (r.setReply n p) := by
  refine ⟨h.bound, h.fresh, ?_, h.defined⟩
  intro m
  by_cases hm : m = n
  · rw [hm]
    exact hcall
  · exact (h.calls m).congr rfl (Function.update_of_ne hm ..) rfl rfl rfl

theorem Tracked.find (h : Tracked r) (hreg : r.call n = .registered)
    (hs : r.step (.find n) = some q) : Tracked q := by
  simp only [step] at hs
  split at hs
  · rename_i hawait
    obtain rfl := Option.some.inj hs
    apply h.setReply
    have hkey := h.key_eq (n := n) (by simp [hreg])
    have hfutures := (h.calls n).futures
    have hran := (h.calls n).ran
    simp only [hreg, Answered, hawait.2, true_and] at hfutures
    simp only [hawait.2, reduceCtorEq, false_and, if_false] at hran
    cases hc : r.cancelled n with
    | false =>
      have hsome : r.futures n = some n := by simp [hfutures, hc]
      rw [if_neg (by simp [hkey, hsome])]
      refine ⟨?_, fun hne => absurd hreg hne, fun _ => hc, ?_, ?_⟩
      · simp [RpcRun.setReply, Answered, hreg, hsome, hc]
      · intro c htook
        simp [RpcRun.setReply] at htook
      · simpa [RpcRun.setReply] using hran
    | true =>
      have hnone : r.futures n = none := by simp [hfutures, hc]
      rw [if_pos (by simp [hkey, hnone])]
      refine ⟨?_, fun hne => absurd hreg hne, ?_, ?_, ?_⟩
      · simp [RpcRun.setReply, Answered, hnone]
      · intro hfound
        simp [RpcRun.setReply] at hfound
      · intro c htook
        simp [RpcRun.setReply] at htook
      · simpa [RpcRun.setReply, hc] using hran
  · cases hs

theorem Tracked.take (h : Tracked r) (hs : r.step (.take n) = some q) : Tracked q := by
  simp only [step] at hs
  split at hs
  · rename_i hfound
    have hcall := h.calls n
    have hreg : r.call n = .registered := by
      by_contra hne
      cases (hcall.early hne).1.symm.trans hfound
    have hkey := h.key_eq (n := n) (by simp [hreg])
    have hc := hcall.found hfound
    have hran := hcall.ran
    have hsome : r.futures n = some n := by simp [hcall.futures, hreg, Answered, hfound, hc]
    rw [hkey, hsome] at hs
    obtain rfl := Option.some.inj hs
    refine ⟨h.bound, h.fresh, ?_, h.defined⟩
    intro m
    by_cases hm : m = n
    · subst hm
      refine ⟨?_, fun hne => absurd hreg hne, ?_, ?_, ?_⟩
      · simp [RpcRun.setReply, setFutures, Answered]
      · intro hf
        simp [RpcRun.setReply] at hf
      · intro c htook
        simp only [RpcRun.setReply, Function.update_self, ReplyPhase.took.injEq] at htook
        exact ⟨htook.symm, hc⟩
      · simpa [RpcRun.setReply, setFutures, hfound] using hran
    · exact (h.calls m).congr rfl (Function.update_of_ne hm ..) (Function.update_of_ne hm ..)
        rfl rfl
  · cases hs

theorem Tracked.func (h : Tracked r) (hs : r.step (.func n) = some q) : Tracked q := by
  simp only [step] at hs
  split at hs
  · rename_i c htook
    obtain ⟨rfl, hc⟩ := (h.calls n).took c htook
    have hran := (h.calls c).ran
    have hfutures := (h.calls c).futures
    have hreg : r.call c = .registered := by
      by_contra hne
      cases ((h.calls c).early hne).1.symm.trans htook
    simp only [htook, reduceCtorEq, false_and, if_false] at hran
    simp only [Answered, htook, ne_eq, reduceCtorEq, not_false_eq_true, and_self, not_true,
      false_and, and_false, if_false] at hfutures
    obtain rfl := Option.some.inj hs
    refine ⟨h.bound, h.fresh, ?_, h.defined⟩
    intro m
    by_cases hm : m = c
    · subst hm
      refine ⟨?_, fun hne => absurd hreg hne, ?_, ?_, ?_⟩
      · simp [RpcRun.setReply, Answered, hfutures]
      · intro hf
        simp [RpcRun.setReply] at hf
      · intro c' ht
        simp [RpcRun.setReply] at ht
      · simp [RpcRun.setReply, hc, hran]
    · refine (h.calls m).congr rfl (Function.update_of_ne hm ..) rfl rfl ?_
      simp [Ne.symm hm]
  · cases hs

theorem trInv_tracked : TrInv (Guarded InOrder step) Tracked := by
  intro r a q hstep h
  obtain ⟨hord, hs⟩ := hstep
  cases a with
  | takeId => exact h.takeId hord hs
  | marshal n =>
    simp only [step] at hs
    split at hs
    · rename_i htook
      obtain rfl := Option.some.inj hs
      exact h.setCall (by simp [htook]) (by simp [htook]) (by simp)
    · cases hs
  | register n => exact h.register hs
  | cancel n => exact h.cancel hord.1 hord.2 hs
  | find n => exact h.find hord hs
  | take n => exact h.take hs
  | func n => exact h.func hs

theorem func_of_took {c : ℕ} (h : r.reply n = .took c) :
    ∃ q, r.step (.func n) = some q ∧ q.ran = (n, c) :: r.ran := by
  simp [step, h]

/-- A handler that has found the id goes on to run the callback of the call. -/
theorem Tracked.completes (h : Tracked r) (hawait : r.reply n ≠ .awaited)
    (hdone : r.reply n ≠ .done) :
    ∃ xs q, xs <:+ [.take n, .func n] ∧ exec step r xs = some q ∧ q.ran = (n, n) :: r.ran := by
  have hcall := h.calls n
  have hreg : r.call n = .registered := by
    by_contra hne
    exact hawait (hcall.early hne).1
  have hkey := h.key_eq (n := n) (by simp [hreg])
  cases hreply : r.reply n with
  | awaited => exact absurd hreply hawait
  | done => exact absurd hreply hdone
  | found =>
    have hsome : r.futures n = some n := by
      simp [hcall.futures, hreg, Answered, hreply, hcall.found hreply]
    have htake : r.step (.take n) = some ((r.setFutures n none).setReply n (.took n)) := by
      simp [step, hreply, hkey, hsome]
    obtain ⟨q, hfunc, hran⟩ :=
      func_of_took (r := (r.setFutures n none).setReply n (.took n)) (Function.update_self ..)
    exact ⟨[.take n, .func n], q, List.suffix_rfl, by simp [exec, htake, hfunc], hran⟩
  | took c =>
    obtain ⟨rfl, -⟩ := hcall.took c hreply
    obtain ⟨q, hfunc, hran⟩ := func_of_took hreply
    exact ⟨[.func c], q, List.suffix_cons .., by simp [exec, hfunc], hran⟩

theorem Tracked.repliesMatched (h : Tracked r) : RepliesMatched r := by
  refine ⟨?_, fun _ => h.completes, ?_, ?_, h.defined⟩
  · intro n hdone hc
    rw [(h.calls n).ran, if_pos ⟨hdone, hc⟩]
  · intro x hx
    obtain ⟨heq, -, hc⟩ := h.of_mem_ran hx
    exact ⟨heq, heq ▸ hc⟩
  · intro _ id n
    rw [(h.calls id).futures]
    constructor
    · intro hsome
      split at hsome
      · next hcond =>
        obtain rfl := Option.some.inj hsome
        exact ⟨(h.key_eq (by simp [hcond.1])).symm, hcond⟩
      · cases hsome
    · rintro ⟨rfl, hcond⟩
      rw [h.key_eq (by simp [hcond.1]), if_pos hcond]

end RpcRun

end AlphaDb.Network
