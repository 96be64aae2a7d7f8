import MiniRedis.Support.Locks

/-!
# Support — Contracts

What one lock of a pool is for.  Its contract names an invariant, which holds of the shared state
whenever nobody owns the lock, and says what those who do not own it may do in the meantime
(`quiet`).  The owner may break the invariant as long as it owns the lock; it relies on the others
to be quiet, and restores the invariant before it lets go.

* `Meets`: a program keeps a contract, from a state on, and ends as a postcondition says.  There is
  a rule for each kind of step, `Meets.bind` for sequences and `Meets.stable` for what the others
  do.
* `Calm`: the programs that begin and end without the lock.
* `Pool.Keeps.run`: **if all goroutines start with calm programs, the invariant holds whenever
  nobody owns the lock.**
-/

namespace MiniRedis.Locks

open Machine

variable {L C σ β β' : Type*}

/-- What the goroutines rely on about a lock. -/
structure Contract (L σ : Type*) where
  lock : L
  inv : σ → Prop
  quiet : σ → σ → Prop
  refl : ∀ s, quiet s s
  trans : ∀ {s s' s''}, quiet s s' → quiet s' s'' → quiet s s''
  stable : ∀ {s s'}, quiet s s' → inv s → inv s'

/-- What the others can have done: anything at all, unless the lock is owned. -/
def Contract.Meanwhile (c : Contract L σ) (owned : Bool) (s s' : σ) : Prop :=
  owned = true → c.quiet s s'

namespace Contract.Meanwhile

variable {c : Contract L σ} {owned : Bool} {s s' s'' : σ}

theorem refl (s : σ) : c.Meanwhile owned s s := fun _ => c.refl s

theorem trans (h : c.Meanwhile owned s s') (h' : c.Meanwhile owned s' s'') :
    c.Meanwhile owned s s'' := fun ho => c.trans (h ho) (h' ho)

end Contract.Meanwhile

/-- The program keeps the contract from the state `s` on, whatever the others do meanwhile, and `Q`
holds where it ends; the flag says whether the lock is owned. -/
inductive Meets (c : Contract L σ) (Q : Bool → β → σ → Prop) :
    Bool → σ → Prog L C σ β → Prop where
  | done {owned : Bool} {s : σ} {x : β} (h : ∀ s', c.Meanwhile owned s s' → Q owned x s') :
      Meets c Q owned s (.done x)
  /-- The lock is granted in a state with the invariant. -/
  | enter {s : σ} {p : Prog L C σ β} (h : ∀ s', c.inv s' → Meets c Q true s' p) :
      Meets c Q false s (.lock c.lock .exclusive p)
  | leave {s : σ} {p : Prog L C σ β} (hinv : c.inv s) (h : ∀ s', Meets c Q false s' p) :
      Meets c Q true s (.unlock c.lock p)
  | lock {owned : Bool} {s : σ} {l : L} {m : Mode} {p : Prog L C σ β} (hl : l ≠ c.lock)
      (h : Meets c Q owned s p) : Meets c Q owned s (.lock l m p)
  | unlock {owned : Bool} {s : σ} {l : L} {p : Prog L C σ β} (hl : l ≠ c.lock)
      (h : Meets c Q owned s p) : Meets c Q owned s (.unlock l p)
  /-- Without the lock, an access has to be quiet. -/
  | act {owned : Bool} {s : σ} {l : L} {m : Mode} {update : σ → σ} {next : σ → Prog L C σ β}
      (hquiet : owned = false → ∀ s', c.quiet s' (update s'))
      (h : ∀ s', c.Meanwhile owned s s' → Meets c Q owned (update s') (next s')) :
      Meets c Q owned s (.act l m update next)
  | wait {owned : Bool} {s : σ} {o : C} {next : Bool → Prog L C σ β}
      (h : ∀ ok, Meets c Q owned s (next ok)) : Meets c Q owned s (.wait o next)
  | recv {owned : Bool} {s : σ} {p : Prog L C σ β} (h : Meets c Q owned s p) :
      Meets c Q owned s (.recv p)

namespace Meets

variable {c : Contract L σ} {Q : Bool → β → σ → Prop} {Q' : Bool → β' → σ → Prop} {owned : Bool}
  {s s' : σ} {p : Prog L C σ β}

/-- What the others do meanwhile does not matter. -/
theorem stable (h : Meets c Q owned s p) (hs : c.Meanwhile owned s s') : Meets c Q owned s' p := by
  induction h with
  | done h => exact .done fun s'' h' => h s'' (hs.trans h')
  | enter h => exact .enter h
  | leave hinv h => exact .leave (c.stable (hs rfl) hinv) h
  | lock hl _ ih => exact .lock hl (ih hs)
  | unlock hl _ ih => exact .unlock hl (ih hs)
  | act hquiet h => exact .act hquiet fun s'' h' => h s'' (hs.trans h')
  | wait _ ih => exact .wait fun ok => ih ok hs
  | recv _ ih => exact .recv (ih hs)

theorem imp {Q' : Bool → β → σ → Prop} (h : Meets c Q owned s p)
    (hQ : ∀ owned x s, Q owned x s → Q' owned x s) : Meets c Q' owned s p := by
  induction h with
  | done h => exact .done fun s' h' => hQ _ _ _ (h s' h')
  | enter _ ih => exact .enter ih
  | leave hinv _ ih => exact .leave hinv ih
  | lock hl _ ih => exact .lock hl ih
  | unlock hl _ ih => exact .unlock hl ih
  | act hquiet _ ih => exact .act hquiet ih
  | wait _ ih => exact .wait ih
  | recv _ ih => exact .recv ih

/-- One program, and then another from where it ends. -/
theorem bind {q : β → Prog L C σ β'} (h : Meets c Q owned s p)
    (hq : ∀ owned x s, Q owned x s → Meets c Q' owned s (q x)) : Meets c Q' owned s (p.bind q) := by
  induction h with
  | done h => exact hq _ _ _ (h _ (.refl _))
  | enter _ ih => exact .enter ih
  | leave hinv _ ih => exact .leave hinv ih
  | lock hl _ ih => exact .lock hl ih
  | unlock hl _ ih => exact .unlock hl ih
  | act hquiet _ ih => exact .act hquiet ih
  | wait _ ih => exact .wait ih
  | recv _ ih => exact .recv ih

/-- The answer at hand, with the lock owned. -/
theorem pure {x : β} (h : ∀ s', c.quiet s s' → Q true x s') :
    Meets c Q true s (.done x : Prog L C σ β) := .done fun s' hs => h s' (hs rfl)

/-- One access under a lock of its own, with the lock owned. -/
theorem guarded {l : L} {m : Mode} {f : σ → σ × β} (hl : l ≠ c.lock)
    (h : ∀ s₁, c.quiet s s₁ → ∀ s₂, c.quiet (f s₁).1 s₂ → Q true (f s₁).2 s₂) :
    Meets c Q true s (Prog.guarded l m f : Prog L C σ β) :=
  .lock hl (.act nofun fun s₁ h₁ => .unlock hl (.pure (h s₁ (h₁ rfl))))

end Meets

/-- The program keeps the contract, and begins and ends without the lock. -/
def Calm (c : Contract L σ) (p : Prog L C σ β) : Prop :=
  ∀ s, Meets c (fun owned _ _ => owned = false) false s p

namespace Calm

variable {c : Contract L σ} {p : Prog L C σ β}

theorem done (x : β) : Calm c (.done x : Prog L C σ β) := fun _ => .done fun _ _ => rfl

theorem bind {q : β → Prog L C σ β'} (h : Calm c p) (hq : ∀ x, Calm c (q x)) :
    Calm c (p.bind q) :=
  fun s => (h s).bind fun owned x s' ho => by
    cases (ho : owned = false)
    exact hq x s'

/-- One quiet access under a lock of its own. -/
theorem guarded {l : L} {m : Mode} {f : σ → σ × β} (hl : l ≠ c.lock)
    (h : ∀ s, c.quiet s (f s).1) : Calm c (Prog.guarded l m f : Prog L C σ β) :=
  fun _ => .lock hl (.act (fun _ => h) fun _ _ => .unlock hl (.done fun _ _ => rfl))

theorem recv (h : Calm c p) : Calm c (.recv p) := fun s => .recv (h s)

/-- What is done under the lock, from any state with the invariant. -/
theorem critical {p : Prog L C σ β}
    (h : ∀ s, c.inv s → Meets c (fun owned _ _ => owned = false) true s p) :
    Calm c (.lock c.lock .exclusive p) := fun _ => .enter h

end Calm

/-! ### Pools -/

variable [DecidableEq L]

/-- The rest of the program keeps the contract, and the lock is among those held if it is owned, and
only once. -/
structure Goroutine.Keeps (c : Contract L σ) (owned : Bool) (state : σ) (g : Goroutine L C σ β) :
    Prop where
  meets : Meets c (fun owned _ _ => owned = false) owned state g.prog
  held : g.held.filter (fun x => x.1 = c.lock) = if owned then [(c.lock, .exclusive)] else []

namespace Pool

variable {T : Type*} [DecidableEq T] {c : Contract L σ} {owner : T → Bool} {s s' : Pool T L C σ β}
  {t : T}

/-- Every goroutine keeps the contract, at most one owns the lock, and when none does the invariant
holds. -/
structure Keeps (c : Contract L σ) (owner : T → Bool) (s : Pool T L C σ β) : Prop where
  each : ∀ t, (s.of t).Keeps c (owner t) s.state
  alone : ∀ t u, owner t = true → owner u = true → t = u
  free : (∀ t, owner t = false) → c.inv s.state

/-- The contract is kept, whoever owns the lock. -/
def Kept (c : Contract L σ) (s : Pool T L C σ β) : Prop := ∃ owner, s.Keeps c owner

namespace Keeps

omit [DecidableEq T] in
/-- A goroutine owns the lock if it is its owner. -/
theorem owns_iff (h : s.Keeps c owner) (t : T) : (s.of t).Owns c.lock ↔ owner t = true := by
  have hheld := (h.each t).held
  constructor
  · intro ho
    by_contra hn
    have hmem : (c.lock, Mode.exclusive) ∈ (s.of t).held.filter fun x => x.1 = c.lock :=
      List.mem_filter.2 ⟨ho, by simp⟩
    rw [hheld, if_neg hn] at hmem
    cases hmem
  · intro ho
    rw [ho, if_pos rfl] at hheld
    exact (List.mem_filter.1 (hheld ▸ List.mem_cons_self)).1

omit [DecidableEq T] in
theorem start {state : σ} {p : T → Prog L C σ β} (hp : ∀ t, Calm c (p t)) (hinv : c.inv state) :
    Keeps c (fun _ => false) ⟨state, fun t => Goroutine.start (p t)⟩ where
  each t := ⟨hp t state, rfl⟩
  alone _ _ h := by cases h
  free _ := hinv

/-- A step of one goroutine: it keeps the contract in the new state, it is quiet if another one owns
the lock, it does not own it beside another, and the invariant holds if none does. -/
theorem update (h : s.Keeps c owner) {state : σ} {g : Goroutine L C σ β} {owned : Bool}
    (hg : g.Keeps c owned state) (hquiet : ∀ u, u ≠ t → owner u = true → c.quiet s.state state)
    (halone : owned = true → ∀ u, u ≠ t → owner u = false)
    (hfree : owned = false → (∀ u, u ≠ t → owner u = false) → c.inv state) :
    Keeps c (Function.update owner t owned) ⟨state, Function.update s.of t g⟩ where
  each u := by
    by_cases hu : u = t
    · subst hu
      change Goroutine.Keeps c _ state (Function.update s.of u g u)
      rw [Function.update_self, Function.update_self]
      exact hg
    · change Goroutine.Keeps c _ state (Function.update s.of t g u)
      rw [Function.update_of_ne hu, Function.update_of_ne hu]
      exact ⟨(h.each u).meets.stable (hquiet u hu), (h.each u).held⟩
  alone u v hu hv := by
    by_cases hut : u = t
    · by_cases hvt : v = t
      · rw [hut, hvt]
      · rw [hut, Function.update_self] at hu
        rw [Function.update_of_ne hvt, halone hu v hvt] at hv
        cases hv
    · rw [Function.update_of_ne hut] at hu
      by_cases hvt : v = t
      · rw [hvt, Function.update_self] at hv
        rw [halone hv u hut] at hu
        cases hu
      · rw [Function.update_of_ne hvt] at hv
        exact h.alone u v hu hv
  free hall := by
    refine hfree ?_ fun u hu => ?_
    · rw [← hall t, Function.update_self]
    · rw [← hall u, Function.update_of_ne hu]

omit [DecidableEq T] in
/-- The other goroutines do not own the lock if one does. -/
theorem others (h : s.Keeps c owner) (ho : owner t = true) (u : T) (hu : u ≠ t) :
    owner u = false := by
  by_contra hn
  exact hu (h.alone u t (by simpa using hn) ho)

/-- A step that leaves the state and the ownership alone. -/
theorem silent (h : s.Keeps c owner) {g : Goroutine L C σ β} {owned : Bool} (ho : owner t = owned)
    (hg : g.Keeps c owned s.state) : (s.set t g).Kept c := by
  subst ho
  refine ⟨_, h.update hg (fun _ _ _ => c.refl _) h.others fun ho hall => h.free fun u => ?_⟩
  by_cases hu : u = t
  · rw [hu, ho]
  · exact hall u hu

/-- **A step keeps the contract.** -/
theorem step (h : s.Keeps c owner) (hstep : Step s t s') : s'.Kept c := by
  have hown := h.owns_iff
  obtain ⟨hmeets, hheld⟩ := h.each t
  generalize ho : owner t = owned at hmeets hheld
  cases hstep with
  | ask ht =>
      rw [ht] at hmeets hheld
      exact h.silent ho ⟨hmeets, hheld⟩
  | own ht hfree =>
      rw [ht] at hmeets hheld
      cases hmeets with
      | enter hp =>
          -- nobody owns the lock, so the invariant holds
          have hnone : ∀ u, owner u = false := fun u => by
            by_contra hn
            exact hfree u ((hown u).2 (by simpa using hn)).holds
          refine ⟨_, h.update ⟨hp _ (h.free hnone), ?_⟩ (fun _ _ _ => c.refl _)
            (fun _ u _ => hnone u) nofun⟩
          rw [List.filter_cons_of_pos (by simp), hheld]
          rfl
      | lock hl hp =>
          refine h.silent ho ⟨hp, ?_⟩
          rw [List.filter_cons_of_neg (by simpa using hl)]
          exact hheld
  | share ht =>
      rw [ht] at hmeets hheld
      cases hmeets with
      | lock hl hp =>
          refine h.silent ho ⟨hp, ?_⟩
          rw [List.filter_cons_of_neg (by simpa using hl)]
          exact hheld
  | unlock ht =>
      rw [ht] at hmeets hheld
      cases hmeets with
      | leave hinv hp =>
          refine ⟨_, h.update ⟨hp _, ?_⟩ (fun _ _ _ => c.refl _) nofun fun _ _ => hinv⟩
          rw [List.filter_cons_of_pos (by simp)] at hheld
          exact (List.cons.inj hheld).2
      | unlock hl hp =>
          rw [List.filter_cons_of_neg (by simpa using hl)] at hheld
          exact h.silent ho ⟨hp, hheld⟩
  | act ht =>
      rw [ht] at hmeets hheld
      cases hmeets with
      | act hquiet hp =>
          subst ho
          -- if another goroutine owns the lock, this one does not
          have hfree : ∀ u, u ≠ t → owner u = true → owner t = false := fun u hu ho => by
            by_contra hn
            exact hu (h.alone u t ho (by simpa using hn))
          refine ⟨_, h.update ⟨hp _ (.refl _), hheld⟩ (fun u hu ho => hquiet (hfree u hu ho) _)
            h.others fun ho hall => ?_⟩
          refine c.stable (hquiet ho _) (h.free fun u => ?_)
          by_cases hu : u = t
          · rw [hu, ho]
          · exact hall u hu
  | wait ok ht =>
      rw [ht] at hmeets hheld
      cases hmeets with
      | wait hp => exact h.silent ho ⟨hp ok, hheld⟩
  | recv ht =>
      rw [ht] at hmeets hheld
      cases hmeets with
      | recv hp => exact h.silent ho ⟨hp, hheld⟩

/-- **The invariant of a lock.**  When goroutines with calm programs have run from a state with the
invariant, and nobody owns the lock, the invariant holds. -/
theorem run {state : σ} {p : T → Prog L C σ β} {ts : List T} (hp : ∀ t, Calm c (p t))
    (hinv : c.inv state) (hrun : Run Step ⟨state, fun t => Goroutine.start (p t)⟩ ts s)
    (hfree : ∀ t, ¬ (s.of t).Owns c.lock) : c.inv s.state := by
  obtain ⟨owner, h⟩ : s.Kept c :=
    hrun.preserves (G := fun _ => True) (fun _ _ _ _ hstep ⟨_, h⟩ => h.step hstep)
      (fun _ _ => trivial) ⟨_, start hp hinv⟩
  refine h.free fun t => ?_
  by_contra hn
  exact hfree t ((h.owns_iff t).2 (by simpa using hn))

end Keeps

end Pool

end MiniRedis.Locks
