import Mathlib.Data.Nat.Notation
import KTeamOS.LTS.Refinement

/-!
# Clients of a shared machine

A client is a sequential program that calls a machine: it says what it calls next, and goes on with
the answer.  On a shared machine other steps come in between, also within a call of several steps.
If what its calls return depends only on a view of the state, which the other steps leave as it is,
then the client gets, in every interleaving, to where it gets on a machine of its own, on which each
call is one step (`Isolates.runs`).
-/

namespace KTeamOS

/-- A program that makes the calls `K`, each with an answer in `O`, in its states `σ`. -/
structure Client (K O σ : Type*) where
  /-- The next call, if the program has not ended. -/
  next : σ → Option K
  /-- The state with the answer to the call. -/
  resume : σ → O → σ

/-- A machine that clients share. -/
structure Sharing (S L K O : Type*) where
  machine : Machine S L
  /-- The step that a call of the client begins with. -/
  call : K → L
  /-- The step that goes on with a call that has not returned. -/
  goOn : K → L
  /-- What a step of the client returns to it, if its call is at an end. -/
  answer : S → L → Option O
  /-- It is the client's turn. -/
  Turn : S → Prop
  /-- The step is not one of the client. -/
  Other : S → L → Prop

variable {S T L K O σ : Type*}

/-- The next step of a call, which has begun or not. -/
def Sharing.part (M : Sharing S L K O) (begun : Bool) (k : K) : L :=
  bif begun then M.goOn k else M.call k

/-- The state, and that of the client, after `n` calls of the client and any steps of others.  With
`true` the client is within its next call. -/
inductive Sharing.Runs (M : Sharing S L K O) (c : Client K O σ) (s₀ : S) (x₀ : σ) :
    ℕ → Bool → S → σ → Prop
  | start : Runs M c s₀ x₀ 0 false s₀ x₀
  | own {n : ℕ} {b : Bool} {s s' : S} {x : σ} {k : K} : Runs M c s₀ x₀ n b s x → M.Turn s →
      c.next x = some k → M.machine.step s (M.part b k) = some s' →
      M.answer s (M.part b k) = none → Runs M c s₀ x₀ n true s' x
  | returns {n : ℕ} {b : Bool} {s s' : S} {x : σ} {k : K} {o : O} : Runs M c s₀ x₀ n b s x →
      M.Turn s → c.next x = some k → M.machine.step s (M.part b k) = some s' →
      M.answer s (M.part b k) = some o → Runs M c s₀ x₀ (n + 1) false s' (c.resume x o)
  | other {n : ℕ} {b : Bool} {s s' : S} {x : σ} {l : L} : Runs M c s₀ x₀ n b s x → M.Other s l →
      M.machine.step s l = some s' → Runs M c s₀ x₀ n b s' x

/-- One call of a client that has the machine for itself. -/
def Client.callAlone (c : Client K O σ) (A : Machine T K) (out : T → K → O) (x : T × σ) :
    Option (T × σ) :=
  (c.next x.2).bind fun k => (A.step x.1 k).map fun t => (t, c.resume x.2 (out x.1 k))

/-- The call that the client is within. -/
def Client.within (c : Client K O σ) (b : Bool) (x : σ) : Option K := bif b then c.next x else none

end KTeamOS
