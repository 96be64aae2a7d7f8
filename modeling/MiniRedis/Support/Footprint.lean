import Mathlib.Data.Fintype.Basic
import Mathlib.Data.Set.Basic
import Mathlib.Logic.Pairwise
import MiniRedis.Support.Machine

/-!
# Support — Footprint

Operations that keep to a part of a shared state, and threads made of them.  The state is seen
through a `view` at the places of a type.  An operation is *confined* to a set of places when it
leaves the others as they are, and what it answers and leaves at those of the set depends on those
alone.  A thread is a tree of atomic sections, each chosen by what the one before it saw; a pool is
a state with a thread for each owner, any of which may take the next section.

* `Confined.commute`: operations confined to disjoint sets commute, in what they answer and in what
  they leave.
* `Within.confined`: a thread of confined sections, run without interruption, is confined.
* `Pool.solo`: **in a pool of threads with disjoint footprints every thread that ends has answered
  what it answers alone, and has left what it leaves alone.**
* `Pool.finishes`: with finitely many owners there is always a way to the end.
-/

namespace MiniRedis.Footprint

open Machine

variable {σ κ α : Type*} {β β' : Type*}

/-- The states look the same at the places of `K`. -/
def Agree (view : σ → κ → α) (K : Set κ) (s s' : σ) : Prop := ∀ k ∈ K, view s k = view s' k

/-- The operation keeps to the places of `K`. -/
structure Confined (view : σ → κ → α) (K : Set κ) (f : σ → σ × β) : Prop where
  frame : ∀ s, ∀ k ∉ K, view (f s).1 k = view s k
  answer : ∀ s s', Agree view K s s' → (f s).2 = (f s').2
  update : ∀ s s', Agree view K s s' → Agree view K (f s).1 (f s').1

section Confined

variable {view : σ → κ → α} {K L : Set κ} {f : σ → σ × β}

theorem Agree.trans {s s' s'' : σ} (h : Agree view K s s') (h' : Agree view K s' s'') :
    Agree view K s s'' :=
  fun k hk => (h k hk).trans (h' k hk)

/-- A larger footprint. -/
theorem Confined.mono (h : Confined view K f) (hKL : K ⊆ L) : Confined view L f where
  frame s k hk := h.frame s k fun hK => hk (hKL hK)
  answer s s' ha := h.answer s s' fun k hk => ha k (hKL hk)
  update s s' ha k hk := by
    by_cases hK : k ∈ K
    · exact h.update s s' (fun k hk => ha k (hKL hk)) k hK
    · rw [h.frame s k hK, h.frame s' k hK, ha k hk]

/-- An answer made from the answer. -/
theorem Confined.map (h : Confined view K f) (g : β → β') :
    Confined view K fun s => ((f s).1, g (f s).2) where
  frame := h.frame
  answer s s' ha := congrArg g (h.answer s s' ha)
  update := h.update

/-- Reading some places. -/
theorem Confined.read {g : σ → β} (h : ∀ s s', Agree view K s s' → g s = g s') :
    Confined view K fun s => (s, g s) :=
  ⟨fun _ _ _ => rfl, h, fun _ _ ha => ha⟩

/-- An operation on a part of the state that is seen at one place. -/
theorem Confined.part {γ : Type*} (get : σ → γ) (put : γ → σ → σ) (mk : γ → α) {k : κ}
    (hmk : ∀ x y, mk x = mk y → x = y) (hview : ∀ s, view s k = mk (get s))
    (hget : ∀ x s, get (put x s) = x) (hframe : ∀ x s j, j ≠ k → view (put x s) j = view s j)
    (f : γ → γ × β) : Confined view {k} fun s => (put (f (get s)).1 s, (f (get s)).2) := by
  have hsame : ∀ s s', Agree view {k} s s' → get s = get s' := fun s s' ha =>
    hmk _ _ (by rw [← hview, ← hview]; exact ha k rfl)
  refine ⟨fun s j hj => hframe _ s j hj, fun s s' ha => ?_, fun s s' ha j hj => ?_⟩
  · rw [hsame s s' ha]
  · obtain rfl : j = k := hj
    rw [hview, hview, hget, hget, hsame s s' ha]

/-- What an operation does elsewhere is not seen. -/
theorem Confined.agree (h : Confined view K f) (hdisj : ∀ k ∈ K, k ∉ L) (s : σ) :
    Agree view L (f s).1 s :=
  fun k hk => h.frame s k fun hK => hdisj k hK hk

/-- **Operations on disjoint sets of places commute.** -/
theorem Confined.commute {g : σ → σ × β'} (hf : Confined view K f) (hg : Confined view L g)
    (hdisj : ∀ k ∈ K, k ∉ L) (s : σ) :
    (f (g s).1).2 = (f s).2 ∧ (g (f s).1).2 = (g s).2 ∧
      ∀ k, view (g (f s).1).1 k = view (f (g s).1).1 k := by
  have hfs : Agree view L (f s).1 s := hf.agree hdisj s
  have hgs : Agree view K (g s).1 s := hg.agree (fun k hL hK => hdisj k hK hL) s
  refine ⟨hf.answer _ _ hgs, hg.answer _ _ hfs, fun k => ?_⟩
  by_cases hK : k ∈ K
  · rw [hg.frame _ k (hdisj k hK), hf.update _ _ hgs k hK]
  · rw [hf.frame _ k hK]
    by_cases hL : k ∈ L
    · exact hg.update _ _ hfs k hL
    · rw [hg.frame _ k hL, hg.frame _ k hL, hf.frame _ k hK]

end Confined

/-! ### Threads -/

/-- A thread: an answer, or a section that changes the state and goes on as what it saw says. -/
inductive Thread (σ β : Type*) where
  | done (b : β)
  | step (update : σ → σ) (next : σ → Thread σ β)

namespace Thread

/-- The thread, uninterrupted. -/
def run : Thread σ β → σ → σ × β
  | done b, s => (s, b)
  | step update next, s => (next s).run (update s)

/-- One thread, and then another that depends on its answer. -/
def bind (q : β → Thread σ β') : Thread σ β → Thread σ β'
  | done b => q b
  | step update next => step update fun s => (next s).bind q

/-- A thread of one section. -/
def once (f : σ → σ × β) : Thread σ β := step (fun s => (f s).1) fun s => done (f s).2

theorem run_bind (q : β → Thread σ β') : ∀ (p : Thread σ β) (s : σ),
    (p.bind q).run s = (q (p.run s).2).run (p.run s).1
  | done _, _ => rfl
  | step update next, s => run_bind q (next s) (update s)

/-- A thread on a part of a larger state. -/
def zoom {τ : Type*} (get : τ → σ) (put : σ → τ → τ) : Thread σ β → Thread τ β
  | done b => done b
  | step update next => step (fun s => put (update (get s)) s) fun s => (next (get s)).zoom get put

theorem zoom_bind {τ : Type*} (get : τ → σ) (put : σ → τ → τ) (q : β → Thread σ β') :
    ∀ p : Thread σ β, (p.bind q).zoom get put = (p.zoom get put).bind fun b => (q b).zoom get put
  | done _ => rfl
  | step _ next => by simp only [bind, zoom, fun s => zoom_bind get put q (next s)]

/-- It runs there as it does alone. -/
theorem run_zoom {τ : Type*} (get : τ → σ) (put : σ → τ → τ) (hget : ∀ x s, get (put x s) = x)
    (hput : ∀ x y s, put x (put y s) = put x s) (hself : ∀ s, put (get s) s = s) :
    ∀ (p : Thread σ β) (s : τ),
      (p.zoom get put).run s = (put (p.run (get s)).1 s, (p.run (get s)).2)
  | done b, s => by rw [zoom, run, run, hself]
  | step update next, s => by
      rw [zoom, run, run, run_zoom get put hget hput hself (next (get s)), hget, hput]

end Thread

/-- Every section of the thread is confined to `K`. -/
inductive Within (view : σ → κ → α) (K : Set κ) : Thread σ β → Prop where
  | done (b : β) : Within view K (.done b)
  | step {update : σ → σ} {next : σ → Thread σ β}
      (h : Confined view K fun s => (update s, next s)) (hnext : ∀ s, Within view K (next s)) :
      Within view K (.step update next)

section Within

variable {view : σ → κ → α} {K L : Set κ} {p : Thread σ β}

theorem Within.mono (h : Within view K p) (hKL : K ⊆ L) : Within view L p := by
  induction h with
  | done b => exact .done b
  | step h _ ih => exact .step (h.mono hKL) ih

theorem Within.once {f : σ → σ × β} (h : Confined view K f) : Within view K (.once f) :=
  .step (h.map Thread.done) fun _ => .done _

theorem Within.bind {q : β → Thread σ β'} (h : Within view K p) (hq : ∀ b, Within view K (q b)) :
    Within view K (p.bind q) := by
  induction h with
  | done b => exact hq b
  | step h _ ih => exact .step (h.map (Thread.bind q)) ih

/-- **A thread of confined sections is confined.** -/
theorem Within.confined (h : Within view K p) : Confined view K p.run := by
  induction h with
  | done b => exact .read fun _ _ _ => rfl
  | @step update next h _ ih =>
      -- From states that agree the first section goes on as the same thread.
      have hnext : ∀ s s', Agree view K s s' → next s = next s' := h.answer
      have hupdate : ∀ s s', Agree view K s s' → Agree view K (update s) (update s') := h.update
      refine ⟨fun s k hk => ?_, fun s s' ha => ?_, fun s s' ha => ?_⟩
      · exact ((ih s).frame (update s) k hk).trans (h.frame s k hk)
      · rw [Thread.run, Thread.run, ← hnext s s' ha]
        exact (ih s).answer _ _ (hupdate s s' ha)
      · rw [Thread.run, Thread.run, ← hnext s s' ha]
        exact (ih s).update _ _ (hupdate s s' ha)

end Within

/-! ### Pools -/

/-- A shared state, and a thread for each owner. -/
structure Pool (σ γ β : Type*) where
  state : σ
  thread : γ → Thread σ β

namespace Pool

variable {γ : Type*} [DecidableEq γ]

/-- The thread of some owner takes its next section. -/
inductive Step : Pool σ γ β → γ → Pool σ γ β → Prop where
  | take {s : Pool σ γ β} {c : γ} {update : σ → σ} {next : σ → Thread σ β}
      (h : s.thread c = .step update next) :
      Step s c ⟨update s.state, Function.update s.thread c (next s.state)⟩

/-- A step runs one section of one thread. -/
theorem Step.inv {s s' : Pool σ γ β} {c : γ} (h : Step s c s') :
    ∃ update next, s.thread c = .step update next ∧ s'.state = update s.state ∧
      s'.thread c = next s.state ∧ ∀ d, d ≠ c → s'.thread d = s.thread d := by
  cases h with
  | take hthread =>
      exact ⟨_, _, hthread, rfl, Function.update_self _ _ _,
        fun d hd => Function.update_of_ne hd _ _⟩

/-- From `s` on, with nobody else about, every thread answers what it answers from `s₀` on, and
leaves the same at its places; the places of nobody are as they were. -/
structure OnCourse (view : σ → κ → α) (K : γ → Set κ) (s₀ s : Pool σ γ β) : Prop where
  within : ∀ c, Within view (K c) (s.thread c)
  alone : ∀ c, ((s.thread c).run s.state).2 = ((s₀.thread c).run s₀.state).2 ∧
    Agree view (K c) ((s.thread c).run s.state).1 ((s₀.thread c).run s₀.state).1
  frame : ∀ k, (∀ c, k ∉ K c) → view s.state k = view s₀.state k

variable {view : σ → κ → α} {K : γ → Set κ} {s₀ s s' : Pool σ γ β} {c : γ}

/-- A section of one thread leaves all threads on course: for its own it is the next one, and the
others do not see it. -/
theorem OnCourse.step (hdisj : Pairwise fun c d => ∀ k ∈ K c, k ∉ K d)
    (h : OnCourse view K s₀ s) (hstep : Step s c s') : OnCourse view K s₀ s' := by
  obtain ⟨update, next, hthread, hstate, hown, hothers⟩ := hstep.inv
  have hc := h.within c
  rw [hthread] at hc
  cases hc with
  | step hsection hnext =>
      refine ⟨fun d => ?_, fun d => ?_, fun k hk => ?_⟩
      · by_cases hd : d = c
        · subst hd
          rw [hown]
          exact hnext s.state
        · rw [hothers d hd]
          exact h.within d
      · by_cases hd : d = c
        · subst hd
          have halone := h.alone d
          rw [hthread] at halone
          rw [hown, hstate]
          exact halone
        · have hseen : Agree view (K d) (update s.state) s.state :=
            hsection.agree (hdisj (Ne.symm hd)) s.state
          have hconfined := (h.within d).confined
          obtain ⟨hanswer, hupdate⟩ := h.alone d
          rw [hothers d hd, hstate]
          exact ⟨(hconfined.answer _ _ hseen).trans hanswer,
            (hconfined.update _ _ hseen).trans hupdate⟩
      · rw [hstate]
        exact (hsection.frame s.state k (hk c)).trans (h.frame k hk)

/-- **Threads with disjoint footprints do not notice each other.** -/
theorem solo (hdisj : Pairwise fun c d => ∀ k ∈ K c, k ∉ K d)
    (hwithin : ∀ c, Within view (K c) (s₀.thread c)) {cs : List γ} (hrun : Run Step s₀ cs s) :
    (∀ c b, s.thread c = .done b → b = ((s₀.thread c).run s₀.state).2 ∧
      Agree view (K c) s.state ((s₀.thread c).run s₀.state).1) ∧
    ∀ k, (∀ c, k ∉ K c) → view s.state k = view s₀.state k := by
  have hstart : OnCourse view K s₀ s₀ :=
    ⟨hwithin, fun _ => ⟨rfl, fun _ _ => rfl⟩, fun _ _ => rfl⟩
  have h : OnCourse view K s₀ s := hrun.preserves (G := fun _ => True)
    (fun _ _ _ _ hstep h => h.step hdisj hstep) (fun _ _ => trivial) hstart
  refine ⟨fun c b hdone => ?_, h.frame⟩
  have halone := h.alone c
  rw [hdone] at halone
  exact halone

/-- A thread can be run to its end. -/
theorem exists_done (c : γ) : ∀ (p : Thread σ β) (s : Pool σ γ β), s.thread c = p →
    ∃ cs s' b, Run Step s cs s' ∧ s'.thread c = .done b ∧ ∀ d, d ≠ c → s'.thread d = s.thread d
  | .done b, s, h => ⟨[], s, b, .nil s, h, fun _ _ => rfl⟩
  | .step update next, s, h => by
      obtain ⟨cs, s', b, hrun, hdone, hothers⟩ := exists_done c (next s.state)
        ⟨update s.state, Function.update s.thread c (next s.state)⟩ (Function.update_self _ _ _)
      refine ⟨c :: cs, s', b, .cons (.take h) hrun, hdone, fun d hd => ?_⟩
      exact (hothers d hd).trans (Function.update_of_ne hd _ _)

/-- All threads of a list can be run to their ends. -/
theorem exists_allDone : ∀ (l : List γ) (s : Pool σ γ β), ∃ cs s', Run Step s cs s' ∧
    ∀ c, c ∈ l ∨ (∃ b, s.thread c = .done b) → ∃ b, s'.thread c = .done b
  | [], s => ⟨[], s, .nil s, fun _ h => h.resolve_left List.not_mem_nil⟩
  | c :: l, s => by
      obtain ⟨cs₁, s₁, b₁, hrun₁, hdone₁, hothers₁⟩ := exists_done c (s.thread c) s rfl
      obtain ⟨cs₂, s₂, hrun₂, hdone₂⟩ := exists_allDone l s₁
      refine ⟨cs₁ ++ cs₂, s₂, hrun₁.append hrun₂, fun d hd => hdone₂ d ?_⟩
      by_cases hdc : d = c
      · exact .inr ⟨b₁, hdc ▸ hdone₁⟩
      · rw [hothers₁ d hdc]
        exact hd.imp_left fun h => (List.mem_cons.1 h).resolve_left hdc

/-- **With finitely many owners, a pool can be run until every thread has ended.** -/
theorem finishes [Fintype γ] (s : Pool σ γ β) :
    ∃ (cs : List γ) (s' : Pool σ γ β) (vs : γ → β), Run Step s cs s' ∧
      ∀ c, s'.thread c = .done (vs c) := by
  obtain ⟨cs, s', hrun, hdone⟩ := exists_allDone Finset.univ.toList s
  choose vs hvs using fun c => hdone c (.inl (Finset.mem_toList.2 (Finset.mem_univ c)))
  exact ⟨cs, s', vs, hrun, hvs⟩

end Pool

end MiniRedis.Footprint
