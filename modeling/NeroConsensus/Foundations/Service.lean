import NeroConsensus.Foundations.GuardedMachine
import Mathlib.Order.Nat

/-!
# Services behind a channel

A service is a task that takes requests out of a bounded channel, one after the other, and answers
each of them over a channel of its own, at once or later.  It is called by any number of clients
at a time.  A call waits until there is room in the channel, puts its request in and, if the
request is one of those that are answered, waits for the answer.  If the task panics, the channels
close, and a call that uses one of them panics as well.  A call may be dropped at any time.

The requests are numbered in the order in which they go into the channel.  What the task answers
is `answers requests number`, a function of that order (`Implements`).

* `Explained`: every call that has returned has the answer that its number gives, on requests that
  were all made before it returned.  A call that is made after another one has returned has the
  higher number (`Explained.lt_of_finished`), so that the order of the channel is one in which the
  calls might have been made one at a time: the service is linearizable.
* `explained_of_reachable`: this is so in every run.
* `Implements.waits_of_idle`: and there is no deadlock.  Where nothing can go on, the calls that
  have not returned wait for an answer that their requests do not have.
-/

namespace NeroConsensus

/-- A task that serves requests `Q` with replies `R`. -/
structure Service (σ Q R : Type) where
  /-- One request is handled, or the task panics. -/
  step : σ → Q → Option σ
  /-- What has been sent so far, each with the number of the request it answers. -/
  replies : σ → List (ℕ × R)
  /-- A call with this request waits for a reply. -/
  awaits : Q → Bool
  capacity : ℕ

namespace Service

/-- How a call ends. -/
inductive Outcome (R : Type) where
  | returned : Option R → Outcome R
  | panicked : Outcome R
  | dropped : Outcome R
  deriving DecidableEq

/-- A call, with the times at which it was made and has ended, and its number. -/
structure Call (Q R : Type) where
  request : Q
  made : ℕ
  number : Option ℕ
  ended : Option (ℕ × Outcome R)
  deriving DecidableEq

/-- A service and its calls. -/
structure Office (σ Q R : Type) where
  clock : ℕ
  calls : List (Call Q R)
  /-- The requests that have been put into the channel, oldest first. -/
  sent : List Q
  /-- How many of them the task has taken out. -/
  taken : ℕ
  /-- What the task has made of them. -/
  server : σ
  running : Bool

inductive Action (Q : Type) where
  | call : Q → Action Q
  | send : ℕ → Action Q
  | serve : Action Q
  | finish : ℕ → Action Q
  | drop : ℕ → Action Q
  deriving DecidableEq

variable {σ Q R : Type}

namespace Office

def start (s : σ) : Office σ Q R :=
  { clock := 0
    calls := []
    sent := []
    taken := 0
    server := s
    running := true }

/-- The call `c` ends. -/
def finishAs (f : Office σ Q R) (c : ℕ) (call : Call Q R) (outcome : Outcome R) : Office σ Q R :=
  { f with
    clock := f.clock + 1
    calls := f.calls.set c { call with ended := some (f.clock, outcome) } }

/-- Put the request of a call into the channel. -/
def send (S : Service σ Q R) (f : Office σ Q R) (c : ℕ) (call : Call Q R) :
    Option (Office σ Q R) :=
  if f.running then
    if f.sent.length < f.taken + S.capacity then
      some { f with
        clock := f.clock + 1
        calls := f.calls.set c { call with number := some f.sent.length }
        sent := f.sent ++ [call.request] }
    else none
  else some (f.finishAs c call .panicked)

/-- The task takes a request out of the channel. -/
def serve (S : Service σ Q R) (f : Office σ Q R) : Option (Office σ Q R) :=
  if f.running then
    match f.sent[f.taken]? with
    | none => none
    | some request =>
      match S.step f.server request with
      | some server =>
        some { f with clock := f.clock + 1, taken := f.taken + 1, server := server }
      | none => some { f with clock := f.clock + 1, taken := f.taken + 1, running := false }
  else none

/-- The call of request `n` goes on with its answer. -/
def finish (S : Service σ Q R) (f : Office σ Q R) (c : ℕ) (call : Call Q R) (n : ℕ) :
    Option (Office σ Q R) :=
  if S.awaits call.request then
    match (S.replies f.server).lookup n with
    | some reply => some (f.finishAs c call (.returned (some reply)))
    | none => if f.running then none else some (f.finishAs c call .panicked)
  else some (f.finishAs c call (.returned none))

def step (S : Service σ Q R) (f : Office σ Q R) : Action Q → Option (Office σ Q R)
  | .call request =>
    some { f with
      clock := f.clock + 1
      calls := f.calls ++ [{ request := request, made := f.clock, number := none, ended := none }] }
  | .send c =>
    match f.calls[c]? with
    | some call => if call.ended = none ∧ call.number = none then f.send S c call else none
    | none => none
  | .serve => f.serve S
  | .finish c =>
    match f.calls[c]? with
    | some call =>
      match call.number with
      | some n => if call.ended = none then f.finish S c call n else none
      | none => none
    | none => none
  | .drop c =>
    match f.calls[c]? with
    | some call => if call.ended = none then some (f.finishAs c call .dropped) else none
    | none => none

end Office

/-- The runs of a service with its calls. -/
abbrev machine (S : Service σ Q R) : GuardedMachine (Office σ Q R) (Action Q) :=
  .ofStep (Office.step S)

/-! ## One step -/

variable {S : Service σ Q R} {f f' : Office σ Q R}

/-- In which case a call ends in a certain way. -/
def Ends (S : Service σ Q R) (f : Office σ Q R) (call : Call Q R) : Outcome R → Prop
  | .returned o => ∃ n, call.number = some n ∧
      if S.awaits call.request then ∃ r, o = some r ∧ (n, r) ∈ S.replies f.server else o = none
  | .panicked => f.running = false
  | .dropped => True

/-- What a step can do. -/
inductive Effect (S : Service σ Q R) (f : Office σ Q R) : Office σ Q R → Prop where
  | made (request : Q) : Effect S f { f with
      clock := f.clock + 1
      calls := f.calls ++ [{ request := request, made := f.clock, number := none, ended := none }] }
  | sent (c : ℕ) (call : Call Q R) (hcall : f.calls[c]? = some call)
      (hopen : call.ended = none ∧ call.number = none) (hrunning : f.running = true) :
      Effect S f { f with
      clock := f.clock + 1
      calls := f.calls.set c { call with number := some f.sent.length }
      sent := f.sent ++ [call.request] }
  | served (request : Q) (server : σ) (hrequest : f.sent[f.taken]? = some request)
      (hrunning : f.running = true) (hserver : S.step f.server request = some server) :
      Effect S f { f with clock := f.clock + 1, taken := f.taken + 1, server := server }
  | crashed (request : Q) (hrequest : f.sent[f.taken]? = some request)
      (hrunning : f.running = true) (hserver : S.step f.server request = none) :
      Effect S f { f with clock := f.clock + 1, taken := f.taken + 1, running := false }
  | ended (c : ℕ) (call : Call Q R) (outcome : Outcome R) (hcall : f.calls[c]? = some call)
      (hends : Ends S f call outcome) : Effect S f (f.finishAs c call outcome)

theorem mem_of_lookup {l : List (ℕ × R)} {n : ℕ} {r : R} (h : l.lookup n = some r) :
    (n, r) ∈ l := by
  obtain ⟨l₁, l₂, rfl, -⟩ := List.lookup_eq_some_iff.mp h
  simp

theorem effect_of_send {c : ℕ} {call : Call Q R} (hcall : f.calls[c]? = some call)
    (hopen : call.ended = none ∧ call.number = none) (h : f.send S c call = some f') :
    Effect S f f' := by
  unfold Office.send at h
  split_ifs at h with hrunning hroom
  · obtain rfl := Option.some.inj h
    exact .sent c call hcall hopen hrunning
  · obtain rfl := Option.some.inj h
    exact .ended c call .panicked hcall (eq_false_of_ne_true hrunning)

theorem effect_of_serve (h : f.serve S = some f') : Effect S f f' := by
  unfold Office.serve at h
  split at h
  · rename_i hrunning
    split at h
    · cases h
    · rename_i request hrequest
      split at h
      · rename_i server hserver
        obtain rfl := Option.some.inj h
        exact .served request server hrequest hrunning hserver
      · rename_i hserver
        obtain rfl := Option.some.inj h
        exact .crashed request hrequest hrunning hserver
  · cases h

theorem effect_of_finish {c n : ℕ} {call : Call Q R} (hcall : f.calls[c]? = some call)
    (hnumber : call.number = some n) (h : f.finish S c call n = some f') : Effect S f f' := by
  unfold Office.finish at h
  split at h
  · rename_i hawaits
    split at h
    · rename_i reply hreply
      obtain rfl := Option.some.inj h
      refine .ended c call _ hcall ⟨n, hnumber, ?_⟩
      rw [if_pos hawaits]
      exact ⟨reply, rfl, mem_of_lookup hreply⟩
    · split_ifs at h with hrunning
      obtain rfl := Option.some.inj h
      exact .ended c call .panicked hcall (eq_false_of_ne_true hrunning)
  · rename_i hawaits
    obtain rfl := Option.some.inj h
    refine .ended c call _ hcall ⟨n, hnumber, ?_⟩
    rw [if_neg hawaits]

theorem effect_of_step {action : Action Q} (h : f.step S action = some f') : Effect S f f' := by
  cases action with
  | call request =>
    obtain rfl := Option.some.inj h
    exact .made request
  | send c =>
    simp only [Office.step] at h
    split at h
    · rename_i call hcall
      split_ifs at h with hopen
      exact effect_of_send hcall hopen h
    · cases h
  | serve => exact effect_of_serve h
  | finish c =>
    simp only [Office.step] at h
    split at h
    · rename_i call hcall
      split at h
      · rename_i n hnumber
        split_ifs at h
        exact effect_of_finish hcall hnumber h
      · cases h
    · cases h
  | drop c =>
    simp only [Office.step] at h
    split at h
    · rename_i call hcall
      split_ifs at h
      obtain rfl := Option.some.inj h
      exact .ended c call .dropped hcall trivial
    · cases h

/-! ## What the calls get -/

/-- The replies of the task are the answers to the requests it has taken.  `I` is what it keeps
in its state. -/
structure Implements (S : Service σ Q R) (s₀ : σ) (answers : List Q → ℕ → Option R)
    (I : List Q → σ → Prop) : Prop where
  init : I [] s₀
  step : ∀ {rs s q s'}, I rs s → S.step s q = some s' → I (rs ++ [q]) s'
  replies : ∀ {rs s n r}, I rs s → ((n, r) ∈ S.replies s ↔ answers rs n = some r)
  append : ∀ {rs n r} q, answers rs n = some r → answers (rs ++ [q]) n = some r

/-- The call `a`, which has returned `o` at the time `t`, has got what its number gives, after `m`
requests that have all been made before. -/
def Accounted (S : Service σ Q R) (answers : List Q → ℕ → Option R) (f : Office σ Q R)
    (a : Call Q R) (t : ℕ) (o : Option R) : Prop :=
  ∃ n m, a.number = some n ∧ n < m ∧ m ≤ f.sent.length ∧
    (if S.awaits a.request then o.isSome ∧ o = answers (f.sent.take m) n else o = none) ∧
    ∀ b ∈ f.calls, ∀ j, b.number = some j → j < m → b.made < t

/-- The order of the channel explains what the calls have returned. -/
structure Explained (S : Service σ Q R) (answers : List Q → ℕ → Option R) (f : Office σ Q R) :
    Prop where
  request : ∀ a ∈ f.calls, ∀ n, a.number = some n → f.sent[n]? = some a.request
  number : ∀ (i j : ℕ) (a b : Call Q R), f.calls[i]? = some a → f.calls[j]? = some b →
    ∀ n, a.number = some n → b.number = some n → i = j
  returned : ∀ a ∈ f.calls, ∀ t o, a.ended = some (t, .returned o) → Accounted S answers f a t o

/-- **A call that is made after another one has returned comes after it.** -/
theorem Explained.lt_of_finished {answers : List Q → ℕ → Option R} (h : Explained S answers f)
    {a b : Call Q R} (ha : a ∈ f.calls) (hb : b ∈ f.calls) {t : ℕ} {o : Option R}
    (hended : a.ended = some (t, .returned o)) (hlater : t < b.made) {i j : ℕ}
    (hi : a.number = some i) (hj : b.number = some j) : i < j := by
  obtain ⟨n, m, hn, hnm, -, -, hmade⟩ := h.returned a ha t o hended
  obtain rfl : n = i := Option.some.inj (hn.symm.trans hi)
  by_contra hle
  have hbefore := hmade b hb j hj (by omega)
  omega

/-- What holds in every state of a run. -/
structure Kept (S : Service σ Q R) (answers : List Q → ℕ → Option R) (I : List Q → σ → Prop)
    (f : Office σ Q R) : Prop where
  explained : Explained S answers f
  made : ∀ a ∈ f.calls, a.made < f.clock
  taken : f.taken ≤ f.sent.length
  server : ∃ k ≤ f.taken, I (f.sent.take k) f.server ∧ (f.running = true → k = f.taken)

section Runs

variable {s₀ : σ} {answers : List Q → ℕ → Option R} {I : List Q → σ → Prop}

theorem Implements.answers_append (himp : Implements S s₀ answers I) {rs : List Q} {n : ℕ}
    {r : R} (h : answers rs n = some r) (l : List Q) : answers (rs ++ l) n = some r := by
  induction l using List.reverseRecOn with
  | nil => simpa using h
  | append_singleton l q ih =>
    rw [← List.append_assoc]
    exact himp.append q ih

/-- An account stays right when more requests come in, and calls keep their times and numbers. -/
theorem Accounted.mono {a : Call Q R} {t : ℕ} {o : Option R} (h : Accounted S answers f a t o)
    {l : List Q} (hsent : f'.sent = f.sent ++ l)
    (hcalls : ∀ b' ∈ f'.calls, ∀ j, b'.number = some j → j < f.sent.length →
      ∃ b ∈ f.calls, b.number = some j ∧ b.made = b'.made) : Accounted S answers f' a t o := by
  obtain ⟨n, m, hn, hnm, hm, hanswer, hmade⟩ := h
  refine ⟨n, m, hn, hnm, ?_, ?_, fun b' hb' j hj hjm => ?_⟩
  · rw [hsent, List.length_append]
    omega
  · rw [hsent, List.take_append_of_le_length hm]
    exact hanswer
  · obtain ⟨b, hb, hbj, hbmade⟩ := hcalls b' hb' j hj (by omega)
    rw [← hbmade]
    exact hmade b hb j hbj hjm

theorem getElem?_set_cases {α : Type} {l : List α} {c i : ℕ} {x a : α}
    (h : (l.set c x)[i]? = some a) : i = c ∧ a = x ∨ i ≠ c ∧ l[i]? = some a := by
  rw [List.getElem?_set] at h
  split_ifs at h with hc hlt
  · exact Or.inl ⟨hc.symm, (Option.some.inj h).symm⟩
  · exact Or.inr ⟨Ne.symm hc, h⟩

theorem Explained.number_lt (h : Explained S answers f) {a : Call Q R} (ha : a ∈ f.calls) {n : ℕ}
    (hn : a.number = some n) : n < f.sent.length :=
  (List.getElem?_eq_some_iff.mp (h.request a ha n hn)).1

/-- A new call has no number. -/
theorem Explained.made (h : Explained S answers f) {x : Call Q R} (hnumber : x.number = none)
    (hended : x.ended = none) (hsent : f'.sent = f.sent) (hcalls : f'.calls = f.calls ++ [x]) :
    Explained S answers f' := by
  have hold : ∀ {a}, a ∈ f'.calls → a ∈ f.calls ∨ a = x := fun ha => by
    rw [hcalls] at ha
    simpa using ha
  have hget : ∀ {i : ℕ} {a}, f'.calls[i]? = some a → ∀ {n}, a.number = some n →
      f.calls[i]? = some a := by
    intro i a hi n hn
    rw [hcalls] at hi
    rcases Nat.lt_or_ge i f.calls.length with hlt | hge
    · rwa [List.getElem?_append_left hlt] at hi
    · rw [List.getElem?_append_right hge] at hi
      obtain rfl := List.mem_singleton.mp (List.mem_of_getElem? hi)
      rw [hnumber] at hn
      cases hn
  refine ⟨fun a ha n hn => ?_, fun i j a b hi hj n hn hn' => ?_, fun a ha t o ho => ?_⟩
  · obtain ha | rfl := hold ha
    · rw [hsent]
      exact h.request a ha n hn
    · rw [hnumber] at hn
      cases hn
  · exact h.number i j a b (hget hi hn) (hget hj hn') n hn hn'
  · obtain ha | rfl := hold ha
    · refine (h.returned a ha t o ho).mono (l := []) (by simp [hsent]) fun b hb j hj _ => ?_
      obtain hb | rfl := hold hb
      · exact ⟨b, hb, hj, rfl⟩
      · rw [hnumber] at hj
        cases hj
    · rw [hended] at ho
      cases ho

/-- A call gets its number. -/
theorem Explained.sent (h : Explained S answers f) {c : ℕ} {x : Call Q R}
    (hx : f.calls[c]? = some x) (hended : x.ended = none)
    (hsent : f'.sent = f.sent ++ [x.request])
    (hcalls : f'.calls = f.calls.set c { x with number := some f.sent.length }) :
    Explained S answers f' := by
  have hold : ∀ {a}, a ∈ f'.calls → a ∈ f.calls ∨
      a = { x with number := some f.sent.length } := fun ha => by
    rw [hcalls] at ha
    exact List.mem_or_eq_of_mem_set ha
  refine ⟨fun a ha n hn => ?_, fun i j a b hi hj n hn hn' => ?_, fun a ha t o ho => ?_⟩
  · rw [hsent]
    obtain ha | rfl := hold ha
    · rw [List.getElem?_append_left (h.number_lt ha hn)]
      exact h.request a ha n hn
    · obtain rfl := Option.some.inj hn
      exact List.getElem?_concat_length
  · rw [hcalls] at hi hj
    rcases getElem?_set_cases hi with ⟨rfl, rfl⟩ | ⟨-, hi'⟩ <;>
      rcases getElem?_set_cases hj with ⟨rfl, rfl⟩ | ⟨-, hj'⟩
    · rfl
    · obtain rfl := Option.some.inj hn
      exact absurd (h.number_lt (List.mem_of_getElem? hj') hn') (Nat.lt_irrefl _)
    · obtain rfl := Option.some.inj hn'
      exact absurd (h.number_lt (List.mem_of_getElem? hi') hn) (Nat.lt_irrefl _)
    · exact h.number i j a b hi' hj' n hn hn'
  · obtain ha | rfl := hold ha
    · refine (h.returned a ha t o ho).mono hsent fun b hb j hj hlt => ?_
      obtain hb | rfl := hold hb
      · exact ⟨b, hb, hj, rfl⟩
      · obtain rfl := Option.some.inj hj
        exact absurd hlt (Nat.lt_irrefl _)
    · rw [hended] at ho
      cases ho

/-- A call ends. -/
theorem Explained.ended (h : Explained S answers f) {c t : ℕ} {x : Call Q R}
    {outcome : Outcome R} (hx : f.calls[c]? = some x) (hsent : f'.sent = f.sent)
    (hcalls : f'.calls = f.calls.set c { x with ended := some (t, outcome) })
    (hnew : ∀ o, outcome = .returned o → Accounted S answers f x t o) :
    Explained S answers f' := by
  have hmem := List.mem_of_getElem? hx
  have hold : ∀ {a}, a ∈ f'.calls → a ∈ f.calls ∨
      a = { x with ended := some (t, outcome) } := fun ha => by
    rw [hcalls] at ha
    exact List.mem_or_eq_of_mem_set ha
  have hmono : ∀ {a t o}, Accounted S answers f a t o → Accounted S answers f' a t o :=
    fun hacc => hacc.mono (l := []) (by simp [hsent]) fun b hb j hj _ => by
      obtain hb | rfl := hold hb
      · exact ⟨b, hb, hj, rfl⟩
      · exact ⟨x, hmem, hj, rfl⟩
  refine ⟨fun a ha n hn => ?_, fun i j a b hi hj n hn hn' => ?_, fun a ha t' o ho => ?_⟩
  · rw [hsent]
    obtain ha | rfl := hold ha
    · exact h.request a ha n hn
    · exact h.request x hmem n hn
  · rw [hcalls] at hi hj
    rcases getElem?_set_cases hi with ⟨rfl, rfl⟩ | ⟨-, hi'⟩ <;>
      rcases getElem?_set_cases hj with ⟨rfl, rfl⟩ | ⟨-, hj'⟩
    · rfl
    · exact h.number _ j x b hx hj' n hn hn'
    · exact h.number i _ a x hi' hx n hn hn'
    · exact h.number i j a b hi' hj' n hn hn'
  · obtain ha | rfl := hold ha
    · exact hmono (h.returned a ha t' o ho)
    · obtain ⟨rfl, rfl⟩ := Prod.mk.inj (Option.some.inj ho)
      exact hmono (hnew o rfl)

theorem Implements.kept_start (himp : Implements S s₀ answers I) :
    Kept S answers I (Office.start s₀) where
  explained :=
    { request := fun a ha => absurd ha List.not_mem_nil
      number := fun i j a b hi => by simp [Office.start] at hi
      returned := fun a ha => absurd ha List.not_mem_nil }
  made a ha := absurd ha List.not_mem_nil
  taken := le_rfl
  server := ⟨0, le_rfl, himp.init, fun _ => rfl⟩

/-- What a call that goes on has got. -/
theorem Kept.accounted (himp : Implements S s₀ answers I) (h : Kept S answers I f)
    {call : Call Q R} (hmem : call ∈ f.calls) {o : Option R}
    (hends : Ends S f call (.returned o)) : Accounted S answers f call f.clock o := by
  obtain ⟨k, -, hI, -⟩ := h.server
  obtain ⟨n, hn, hreply⟩ := hends
  refine ⟨n, f.sent.length, hn, h.explained.number_lt hmem hn, le_rfl, ?_,
    fun b hb _ _ _ => h.made b hb⟩
  rw [List.take_length]
  split_ifs at hreply ⊢
  · obtain ⟨r, rfl, hr⟩ := hreply
    have hanswer := himp.answers_append ((himp.replies hI).mp hr) (f.sent.drop k)
    rw [List.take_append_drop] at hanswer
    exact ⟨rfl, hanswer.symm⟩
  · exact hreply

/-- **Every step keeps it.** -/
theorem Kept.step (himp : Implements S s₀ answers I) (h : Kept S answers I f)
    (heffect : Effect S f f') : Kept S answers I f' := by
  obtain ⟨k, hk, hI, hrun⟩ := h.server
  have hlater : ∀ a ∈ f.calls, a.made < f.clock + 1 := fun a ha =>
    Nat.lt_succ_of_lt (h.made a ha)
  cases heffect with
  | made request =>
    refine ⟨h.explained.made rfl rfl rfl rfl, fun a ha => ?_, h.taken, k, hk, hI, hrun⟩
    rcases List.mem_append.mp ha with ha | ha
    · exact hlater a ha
    · obtain rfl := List.mem_singleton.mp ha
      exact Nat.lt_succ_self _
  | sent c call hcall hopen hrunning =>
    refine ⟨h.explained.sent hcall hopen.1 rfl rfl, fun a ha => ?_, ?_, k, hk, ?_, hrun⟩
    · rcases List.mem_or_eq_of_mem_set ha with ha | rfl
      · exact hlater a ha
      · exact hlater call (List.mem_of_getElem? hcall)
    · exact h.taken.trans (by simp)
    · rw [List.take_append_of_le_length (hk.trans h.taken)]
      exact hI
  | served request server hrequest hrunning hserver =>
    obtain rfl := hrun hrunning
    refine ⟨⟨h.explained.request, h.explained.number, h.explained.returned⟩, hlater, ?_,
      f.taken + 1, le_rfl, ?_, fun _ => rfl⟩
    · exact (List.getElem?_eq_some_iff.mp hrequest).1
    · rw [List.take_add_one, hrequest]
      exact himp.step hI hserver
  | crashed request hrequest hrunning hserver =>
    refine ⟨⟨h.explained.request, h.explained.number, h.explained.returned⟩, hlater, ?_,
      k, Nat.le_succ_of_le hk, hI, fun hc => by cases hc⟩
    exact (List.getElem?_eq_some_iff.mp hrequest).1
  | ended c call outcome hcall hends =>
    have hmem := List.mem_of_getElem? hcall
    refine ⟨h.explained.ended hcall rfl rfl fun o ho => ?_, fun a ha => ?_, h.taken, k, hk, hI,
      hrun⟩
    · subst ho
      exact h.accounted himp hmem hends
    · rcases List.mem_or_eq_of_mem_set ha with ha | rfl
      · exact hlater a ha
      · exact hlater call hmem

theorem kept_of_reachable (himp : Implements S s₀ answers I)
    (hreach : S.machine.Reachable (Office.start s₀) f) : Kept S answers I f :=
  hreach.invariant himp.kept_start fun _ _ _ h hguard =>
    h.step himp (effect_of_step (GuardedMachine.ofStep_next hguard))

/-- **In every run the order of the channel explains what the calls return.** -/
theorem explained_of_reachable (himp : Implements S s₀ answers I)
    (hreach : S.machine.Reachable (Office.start s₀) f) : Explained S answers f :=
  (kept_of_reachable himp hreach).explained

/-! ## No panics, and no deadlocks -/

/-- The task runs, and no call has panicked. -/
def Steady (f : Office σ Q R) : Prop :=
  f.running = true ∧ ∀ a ∈ f.calls, ∀ t, a.ended ≠ some (t, .panicked)

theorem Steady.step (h : Steady f) (hsteady : ∀ q, S.step f.server q ≠ none)
    (heffect : Effect S f f') : Steady f' := by
  obtain ⟨hrunning, hcalls⟩ := h
  cases heffect with
  | made request =>
    refine ⟨hrunning, fun a ha => ?_⟩
    rcases List.mem_append.mp ha with ha | ha
    · exact hcalls a ha
    · obtain rfl := List.mem_singleton.mp ha
      exact fun t ht => by cases ht
  | sent c call hcall hopen _ =>
    refine ⟨hrunning, fun a ha => ?_⟩
    rcases List.mem_or_eq_of_mem_set ha with ha | rfl
    · exact hcalls a ha
    · exact hcalls call (List.mem_of_getElem? hcall)
  | served request server _ _ _ => exact ⟨hrunning, hcalls⟩
  | crashed request _ _ hserver => exact absurd hserver (hsteady request)
  | ended c call outcome hcall hends =>
    refine ⟨hrunning, fun a ha => ?_⟩
    rcases List.mem_or_eq_of_mem_set ha with ha | rfl
    · exact hcalls a ha
    · intro t ht
      obtain ⟨-, rfl⟩ := Prod.mk.inj (Option.some.inj ht)
      exact absurd (hrunning.symm.trans hends) (by decide)

/-- Nothing can go on but new calls, and the end of calls that are dropped. -/
def Idle (S : Service σ Q R) (f : Office σ Q R) : Prop :=
  f.step S .serve = none ∧
    ∀ c < f.calls.length, f.step S (.send c) = none ∧ f.step S (.finish c) = none

instance (S : Service σ Q R) (f : Office σ Q R) : Decidable (Idle S f) :=
  inferInstanceAs (Decidable (_ ∧ ∀ c < f.calls.length, _ ∧ _))

section Steady

variable (himp : Implements S s₀ answers I)
  (hsteady : ∀ {rs s q}, I rs s → S.step s q ≠ none)
  (hreach : S.machine.Reachable (Office.start s₀) f)

include himp hsteady hreach

/-- **Where the task does not panic, no call does.** -/
theorem Implements.steady : Steady f := by
  refine hreach.invariant ⟨rfl, fun a ha => by cases ha⟩ fun f action hr h hguard => ?_
  obtain ⟨k, hk, hI, -⟩ := (kept_of_reachable himp hr).server
  exact h.step (fun q => hsteady hI) (effect_of_step (GuardedMachine.ofStep_next hguard))

/-- **There is no deadlock.**  The calls that are open when nothing can go on are waiting for an
answer that there is not. -/
theorem Implements.waits_of_idle (hcapacity : 0 < S.capacity) (hidle : Idle S f)
    {a : Call Q R} (ha : a ∈ f.calls) (hopen : a.ended = none) :
    S.awaits a.request = true ∧ ∃ n, a.number = some n ∧ f.sent[n]? = some a.request ∧
      answers f.sent n = none := by
  have hk := kept_of_reachable himp hreach
  have hrunning := (himp.steady hsteady hreach).1
  obtain ⟨k, -, hI, htaken⟩ := hk.server
  obtain rfl := htaken hrunning
  obtain ⟨hserve, hcall⟩ := hidle
  -- the task has taken all the requests
  have hall : f.taken = f.sent.length := by
    by_contra hne
    have hlt : f.taken < f.sent.length := by have := hk.taken; omega
    simp only [Office.step, Office.serve, if_pos hrunning, List.getElem?_eq_getElem hlt] at hserve
    split at hserve <;> cases hserve
  rw [hall, List.take_length] at hI
  obtain ⟨c, hc⟩ := List.getElem?_of_mem ha
  obtain ⟨hsend, hfinish⟩ := hcall c (List.getElem?_eq_some_iff.mp hc).1
  cases hnumber : a.number with
  | none =>
    -- there is room in the channel
    have hroom : f.sent.length < f.taken + S.capacity := by omega
    simp [Office.step, hc, hopen, hnumber, Office.send, hrunning, hroom] at hsend
  | some n =>
    simp only [Office.step, hc, hnumber, hopen, Office.finish, if_true] at hfinish
    split at hfinish
    · rename_i hawaits
      refine ⟨hawaits, n, rfl, hk.explained.request a ha n hnumber, ?_⟩
      by_contra hne
      obtain ⟨r, hr⟩ := Option.ne_none_iff_exists'.mp hne
      have hmem := (himp.replies hI).mpr hr
      split at hfinish
      · cases hfinish
      · rename_i hlookup
        simpa using List.lookup_eq_none_iff.mp hlookup _ hmem
    · cases hfinish

end Steady

end Runs

end Service
end NeroConsensus
