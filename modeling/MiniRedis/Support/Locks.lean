import MiniRedis.Support.Footprint

/-!
# Support — Locks

Programs that take locks, and pools of goroutines that run them.  A lock is taken shared or
exclusively, as `sync.RWMutex` has it: an exclusive request is announced before it is granted, and
once it is announced no shared one is granted any more.  A program does its accesses, to what the
locks guard, one at a time, and goes on as what it saw says; at an outlet it waits for the outside,
and at a receive for something to arrive, possibly for ever.

The locks are ranked (`Rules`).  A program *obeys* the rules (`Obeys`) when it takes only locks
above all it holds, accesses what it has locked and nothing else, waits at an outlet with no other
lock than that of the outlet, which it took with none, and receives with no lock at all.

* `Prog.sections`: a program without its locks is a thread (`Footprint`).
* `Sound.race_free`: **two goroutines that are both at an access are at accesses that commute, or
  that both leave alone what does not synchronise itself.**
* `Alone.runs`: a goroutine that has the pool to itself runs its program to the end.
* `Sound.progress`: **if no goroutine can move, each has ended, is at a receive without a lock, or
  is held up by a stuck outlet, with no lock but that of the outlet.**
-/

namespace MiniRedis.Locks

open Machine Footprint

variable {L C σ α α' β β' : Type*}

/-- How a lock is held: with other readers, or alone. -/
inductive Mode where
  | shared | exclusive
deriving DecidableEq

/-- A program: an answer, or a step and what comes after it. -/
inductive Prog (L C σ β : Type*) where
  | done (b : β)
  | lock (l : L) (m : Mode) (next : Prog L C σ β)
  | unlock (l : L) (next : Prog L C σ β)
  /-- An access to what the lock guards. -/
  | act (l : L) (m : Mode) (update : σ → σ) (next : σ → Prog L C σ β)
  /-- A wait for the outside, and whether it went well. -/
  | wait (c : C) (next : Bool → Prog L C σ β)
  /-- A receive: it lasts until something arrives. -/
  | recv (next : Prog L C σ β)

namespace Prog

/-- One program, and then another that depends on its answer. -/
def bind (q : β → Prog L C σ β') : Prog L C σ β → Prog L C σ β'
  | done b => q b
  | lock l m p => lock l m (p.bind q)
  | unlock l p => unlock l (p.bind q)
  | act l m update next => act l m update fun s => (next s).bind q
  | wait c next => wait c fun ok => (next ok).bind q
  | recv p => recv (p.bind q)

/-- The program without its locks, with waits that go well and receives that end. -/
def sections : Prog L C σ β → Thread σ β
  | done b => .done b
  | lock _ _ p | unlock _ p | recv p => p.sections
  | wait _ next => (next true).sections
  | act _ _ update next => .step update fun s => (next s).sections

/-- The sections of programs one after the other. -/
theorem sections_bind (q : β → Prog L C σ β') : ∀ p : Prog L C σ β,
    (p.bind q).sections = p.sections.bind fun b => (q b).sections
  | done _ => rfl
  | lock _ _ p | unlock _ p | recv p => sections_bind q p
  | wait _ next => sections_bind q (next true)
  | act _ _ _ next => by
      simp only [bind, sections, Thread.bind, fun s => sections_bind q (next s)]

/-- One access under its lock. -/
def guarded (l : L) (m : Mode) (f : σ → σ × β) : Prog L C σ β :=
  lock l m (act l m (fun s => (f s).1) fun s => unlock l (done (f s).2))

@[simp] theorem sections_guarded (l : L) (m : Mode) (f : σ → σ × β) :
    (guarded l m f : Prog L C σ β).sections = .once f := rfl

end Prog

/-! ### The discipline -/

/-- The rules: the rank of each lock, the lock of each outlet, what each lock guards (`view`), and
the part of it that does not synchronise itself (`plain`). -/
structure Rules (L C σ α α' : Type*) where
  rank : L → Nat
  top : Nat
  rank_le : ∀ l, rank l ≤ top
  outlet : C → L
  view : σ → L → α
  plain : α → α'

/-- An access keeps to what the lock guards, and a shared one leaves alone what does not synchronise
itself. -/
structure Access (o : Rules L C σ α α') (l : L) (m : Mode) (update : σ → σ) (next : σ → β) :
    Prop where
  confined : Confined o.view {l} fun s => (update s, next s)
  shared : m = .shared → ∀ s, o.plain (o.view (update s) l) = o.plain (o.view s l)

/-- The program obeys the rules from where it holds `held` on, ends with `base`, and waits at the
outlets of `S` alone. -/
inductive Obeys (o : Rules L C σ α α') (S : Set C) (base : List (L × Mode)) :
    List (L × Mode) → Prog L C σ β → Prop where
  | done (b : β) : Obeys o S base base (.done b)
  | lock {l : L} {m : Mode} {held : List (L × Mode)} {p : Prog L C σ β}
      (hrank : ∀ x ∈ held, o.rank x.1 < o.rank l) (hout : ∀ c, l = o.outlet c → held = [] ∧ c ∈ S)
      (h : Obeys o S base ((l, m) :: held) p) : Obeys o S base held (.lock l m p)
  | unlock {l : L} {m : Mode} {held : List (L × Mode)} {p : Prog L C σ β}
      (h : Obeys o S base held p) : Obeys o S base ((l, m) :: held) (.unlock l p)
  | act {l : L} {m m' : Mode} {held : List (L × Mode)} {update : σ → σ}
      {next : σ → Prog L C σ β} (hl : (l, m') ∈ held) (hm : m = .exclusive → m' = .exclusive)
      (ha : Access o l m update next) (h : ∀ s, Obeys o S base held (next s)) :
      Obeys o S base held (.act l m update next)
  | wait {c : C} {next : Bool → Prog L C σ β} (hc : c ∈ S)
      (h : ∀ ok, Obeys o S base [(o.outlet c, .exclusive)] (next ok)) :
      Obeys o S base [(o.outlet c, .exclusive)] (.wait c next)
  | recv {p : Prog L C σ β} (h : Obeys o S base [] p) : Obeys o S base [] (.recv p)

namespace Obeys

variable {o : Rules L C σ α α'} {S : Set C} {base base' held : List (L × Mode)} {p : Prog L C σ β}

/-- Programs one after the other obey the order if each does. -/
theorem bind {q : β → Prog L C σ β'} (h : Obeys o S base held p)
    (hq : ∀ b, Obeys o S base' base (q b)) : Obeys o S base' held (p.bind q) := by
  induction h with
  | done b => exact hq b
  | lock hrank hout _ ih => exact .lock hrank hout ih
  | unlock _ ih => exact .unlock ih
  | act hl hm ha _ ih => exact .act hl hm ⟨ha.confined.map (Prog.bind q), ha.shared⟩ ih
  | wait hc _ ih => exact .wait hc ih
  | recv _ ih => exact .recv ih

/-- A program that ends with the locks it began with, and then another. -/
theorem seq {q : β → Prog L C σ β'} (h : Obeys o S held held p)
    (hq : ∀ b, Obeys o S base held (q b)) : Obeys o S base held (p.bind q) := h.bind hq

/-- An access is to what is locked, exclusively if the access is. -/
theorem locked {l : L} {m : Mode} {update : σ → σ} {next : σ → Prog L C σ β}
    (h : Obeys o S base held (.act l m update next)) :
    (∃ m', (l, m') ∈ held ∧ (m = .exclusive → m' = .exclusive)) ∧ Access o l m update next := by
  cases h with
  | act hl hm ha => exact ⟨⟨_, hl, hm⟩, ha⟩

/-- One access under a lock above those held. -/
theorem guarded {l : L} {m : Mode} {f : σ → σ × β} (hrank : ∀ x ∈ base, o.rank x.1 < o.rank l)
    (hout : ∀ c, l ≠ o.outlet c) (hf : Access o l m (fun s => (f s).1) fun s => (f s).2) :
    Obeys o S base base (Prog.guarded l m f) :=
  .lock hrank (fun c hc => absurd hc (hout c))
    (.act List.mem_cons_self id
      ⟨hf.confined.map fun b => Prog.unlock l (Prog.done b), hf.shared⟩
      fun _ => .unlock (.done _))

end Obeys

/-! ### Goroutines -/

/-- A program under way, with the locks it holds, the last one taken first; `asked` when it has
announced the exclusive lock it is at. -/
structure Goroutine (L C σ β : Type*) where
  prog : Prog L C σ β
  held : List (L × Mode)
  asked : Bool

namespace Goroutine

/-- A goroutine before its first step. -/
def start (p : Prog L C σ β) : Goroutine L C σ β := ⟨p, [], false⟩

/-- The lock is held, in whichever mode. -/
def Holds (g : Goroutine L C σ β) (l : L) : Prop := ∃ m, (l, m) ∈ g.held

/-- The lock is held alone. -/
def Owns (g : Goroutine L C σ β) (l : L) : Prop := (l, .exclusive) ∈ g.held

/-- The goroutine waits for the lock, to hold it alone; nobody who comes later may share it. -/
def Asks (g : Goroutine L C σ β) (l : L) : Prop :=
  g.asked = true ∧ ∃ p, g.prog = .lock l .exclusive p

theorem Owns.holds {g : Goroutine L C σ β} {l : L} (h : g.Owns l) : g.Holds l := ⟨_, h⟩

/-- The goroutine waits at an outlet that is stuck, or at a receive. -/
def Stalled (stuck : Set C) (g : Goroutine L C σ β) : Prop :=
  (∃ c next, g.prog = .wait c next ∧ c ∈ stuck) ∨ ∃ p, g.prog = .recv p

/-- The goroutine has ended; or it is at a receive and holds nothing; or one of the outlets holds it
up: it is at the outlet, with the lock of the outlet alone, or it wants that lock and has none. -/
def AtRest (o : Rules L C σ α α') (outlets : Set C) (g : Goroutine L C σ β) : Prop :=
  (∃ b, g.prog = .done b) ∧ g.held = [] ∨ (∃ p, g.prog = .recv p) ∧ g.held = [] ∨
    ∃ c ∈ outlets, (∃ next, g.prog = .wait c next) ∧ g.held = [(o.outlet c, .exclusive)] ∨
      (∃ m p, g.prog = .lock (o.outlet c) m p) ∧ g.held = []

/-- A stalled goroutine waits for no lock. -/
theorem Stalled.not_lock {stuck : Set C} {g : Goroutine L C σ β} (h : g.Stalled stuck) {l : L}
    {m : Mode} {p : Prog L C σ β} : g.prog ≠ .lock l m p := by
  intro hp
  rcases h with ⟨c, next, hw, -⟩ | ⟨q, hr⟩
  · rw [hp] at hw
    cases hw
  · rw [hp] at hr
    cases hr

/-- The rest of the program obeys the order, and only exclusive locks are announced. -/
structure Sound (o : Rules L C σ α α') (S : Set C) (g : Goroutine L C σ β) : Prop where
  obeys : Obeys o S [] g.held g.prog
  asked : g.asked = true → ∃ l p, g.prog = .lock l .exclusive p

/-- Only a goroutine at an exclusive lock has announced one. -/
theorem Sound.unasked {o : Rules L C σ α α'} {S : Set C} {g : Goroutine L C σ β} (hg : g.Sound o S)
    (h : ∀ l p, g.prog ≠ .lock l .exclusive p) : g.asked = false := by
  by_contra ha
  obtain ⟨l, p, hp⟩ := hg.asked (by simpa using ha)
  exact h l p hp

end Goroutine

/-- A shared state, and the goroutines. -/
structure Pool (T L C σ β : Type*) where
  state : σ
  of : T → Goroutine L C σ β

namespace Pool

variable {T : Type*} [DecidableEq T]

/-- One goroutine changes. -/
def set (s : Pool T L C σ β) (t : T) (g : Goroutine L C σ β) : Pool T L C σ β :=
  { s with of := Function.update s.of t g }

/-- Some goroutine takes its next step. -/
inductive Step : Pool T L C σ β → T → Pool T L C σ β → Prop where
  /-- An exclusive request is announced, one at a time. -/
  | ask {s : Pool T L C σ β} {t : T} {l : L} {p : Prog L C σ β} {held : List (L × Mode)}
      (h : s.of t = ⟨.lock l .exclusive p, held, false⟩)
      (hfree : ∀ u, ¬ (s.of u).Owns l ∧ ¬ (s.of u).Asks l) :
      Step s t (s.set t ⟨.lock l .exclusive p, held, true⟩)
  /-- It is granted when nobody holds the lock any more. -/
  | own {s : Pool T L C σ β} {t : T} {l : L} {p : Prog L C σ β} {held : List (L × Mode)}
      (h : s.of t = ⟨.lock l .exclusive p, held, true⟩) (hfree : ∀ u, ¬ (s.of u).Holds l) :
      Step s t (s.set t ⟨p, (l, .exclusive) :: held, false⟩)
  /-- A shared one is granted when none is announced and nobody owns the lock. -/
  | share {s : Pool T L C σ β} {t : T} {l : L} {p : Prog L C σ β} {held : List (L × Mode)}
      (h : s.of t = ⟨.lock l .shared p, held, false⟩)
      (hfree : ∀ u, ¬ (s.of u).Owns l ∧ ¬ (s.of u).Asks l) :
      Step s t (s.set t ⟨p, (l, .shared) :: held, false⟩)
  | unlock {s : Pool T L C σ β} {t : T} {l : L} {m : Mode} {p : Prog L C σ β}
      {held : List (L × Mode)} (h : s.of t = ⟨.unlock l p, (l, m) :: held, false⟩) :
      Step s t (s.set t ⟨p, held, false⟩)
  | act {s : Pool T L C σ β} {t : T} {l : L} {m : Mode} {update : σ → σ}
      {next : σ → Prog L C σ β} {held : List (L × Mode)}
      (h : s.of t = ⟨.act l m update next, held, false⟩) :
      Step s t ⟨update s.state, Function.update s.of t ⟨next s.state, held, false⟩⟩
  | wait {s : Pool T L C σ β} {t : T} {c : C} {next : Bool → Prog L C σ β}
      {held : List (L × Mode)} (ok : Bool) (h : s.of t = ⟨.wait c next, held, false⟩) :
      Step s t (s.set t ⟨next ok, held, false⟩)
  | recv {s : Pool T L C σ β} {t : T} {p : Prog L C σ β} {held : List (L × Mode)}
      (h : s.of t = ⟨.recv p, held, false⟩) : Step s t (s.set t ⟨p, held, false⟩)

/-! ### What a step does -/

/-- What a step makes of the goroutine that takes it. -/
inductive Next (state : σ) : Goroutine L C σ β → Goroutine L C σ β → Prop where
  | ask {l : L} {p : Prog L C σ β} {held : List (L × Mode)} :
      Next state ⟨.lock l .exclusive p, held, false⟩ ⟨.lock l .exclusive p, held, true⟩
  | take {l : L} {m : Mode} {p : Prog L C σ β} {held : List (L × Mode)} {asked : Bool} :
      Next state ⟨.lock l m p, held, asked⟩ ⟨p, (l, m) :: held, false⟩
  | unlock {l : L} {m : Mode} {p : Prog L C σ β} {held : List (L × Mode)} :
      Next state ⟨.unlock l p, (l, m) :: held, false⟩ ⟨p, held, false⟩
  | act {l : L} {m : Mode} {update : σ → σ} {next : σ → Prog L C σ β} {held : List (L × Mode)} :
      Next state ⟨.act l m update next, held, false⟩ ⟨next state, held, false⟩
  | wait {c : C} {next : Bool → Prog L C σ β} {held : List (L × Mode)} (ok : Bool) :
      Next state ⟨.wait c next, held, false⟩ ⟨next ok, held, false⟩
  | recv {p : Prog L C σ β} {held : List (L × Mode)} :
      Next state ⟨.recv p, held, false⟩ ⟨p, held, false⟩

variable {o : Rules L C σ α α'} {S : T → Set C} {s s' : Pool T L C σ β} {t : T} {stuck : Set C}

/-- A step is that of one goroutine. -/
theorem Step.next (h : Step s t s') :
    ∃ g, Next s.state (s.of t) g ∧ s'.of = Function.update s.of t g := by
  cases h with
  | ask h => exact ⟨_, h ▸ .ask, rfl⟩
  | own h => exact ⟨_, h ▸ .take, rfl⟩
  | share h => exact ⟨_, h ▸ .take, rfl⟩
  | unlock h => exact ⟨_, h ▸ .unlock, rfl⟩
  | act h => exact ⟨_, h ▸ .act, rfl⟩
  | wait ok h => exact ⟨_, h ▸ .wait ok, rfl⟩
  | recv h => exact ⟨_, h ▸ .recv, rfl⟩

/-- A goroutine's step keeps to the order. -/
theorem Next.sound {state : σ} {S : Set C} {g g' : Goroutine L C σ β} (h : Next state g g')
    (hg : g.Sound o S) : g'.Sound o S := by
  obtain ⟨hobeys, -⟩ := hg
  cases h with
  | ask => exact ⟨hobeys, fun _ => ⟨_, _, rfl⟩⟩
  | take =>
      cases hobeys with
      | lock _ _ h => exact ⟨h, nofun⟩
  | unlock =>
      cases hobeys with
      | unlock h => exact ⟨h, nofun⟩
  | act =>
      cases hobeys with
      | act _ _ _ h => exact ⟨h state, nofun⟩
  | wait ok =>
      cases hobeys with
      | wait _ h => exact ⟨h ok, nofun⟩
  | recv =>
      cases hobeys with
      | recv h => exact ⟨h, nofun⟩

/-! ### The invariant -/

/-- Every goroutine obeys the order, and a lock that is owned is held by nobody else. -/
structure Sound (o : Rules L C σ α α') (S : T → Set C) (s : Pool T L C σ β) : Prop where
  each : ∀ t, (s.of t).Sound o (S t)
  alone : ∀ t u l, (s.of t).Owns l → (s.of u).Holds l → t = u

omit [DecidableEq T] in
theorem Sound.start {state : σ} {p : T → Prog L C σ β} (h : ∀ t, Obeys o (S t) [] [] (p t)) :
    Sound o S ⟨state, fun t => .start (p t)⟩ where
  each t := ⟨h t, nofun⟩
  alone _ _ _ h := by cases h

/-- A goroutine may come to own a lock that nobody holds, and to hold one that nobody owns. -/
theorem Sound.alone_update (hs : s.Sound o S) {g : Goroutine L C σ β}
    (hown : ∀ l, g.Owns l → (s.of t).Owns l ∨ ∀ u, ¬ (s.of u).Holds l)
    (hhold : ∀ l, g.Holds l → (s.of t).Holds l ∨ ∀ u, ¬ (s.of u).Owns l) (u v : T) (l : L)
    (hu : (Function.update s.of t g u).Owns l) (hv : (Function.update s.of t g v).Holds l) :
    u = v := by
  by_cases hut : u = t
  · by_cases hvt : v = t
    · rw [hut, hvt]
    · rw [hut, Function.update_self] at hu
      rw [Function.update_of_ne hvt] at hv
      rcases hown l hu with h | h
      · rw [hut]
        exact hs.alone t v l h hv
      · exact absurd hv (h v)
  · rw [Function.update_of_ne hut] at hu
    by_cases hvt : v = t
    · rw [hvt, Function.update_self] at hv
      rcases hhold l hv with h | h
      · rw [hvt]
        exact hs.alone u t l hu h
      · exact absurd hu (h u)
    · rw [Function.update_of_ne hvt] at hv
      exact hs.alone u v l hu hv

theorem Sound.step (h : Step s t s') (hs : s.Sound o S) : s'.Sound o S := by
  obtain ⟨g, hnext, hof⟩ := h.next
  refine ⟨fun u => ?_, ?_⟩
  · rw [hof]
    by_cases hu : u = t
    · rw [hu, Function.update_self]
      exact hnext.sound (hs.each t)
    · rw [Function.update_of_ne hu]
      exact hs.each u
  -- only the two grants add to what is held
  · have keep : ∀ {p p' : Prog L C σ β} {held held' : List (L × Mode)} {a a' : Bool},
        s.of t = ⟨p, held, a⟩ → held' ⊆ held →
        ∀ u v l, (Function.update s.of t ⟨p', held', a'⟩ u).Owns l →
          (Function.update s.of t ⟨p', held', a'⟩ v).Holds l → u = v := by
      intro p p' held held' a a' ht hsub
      refine hs.alone_update (fun l hl => .inl ?_) (fun l hl => .inl ?_)
      · rw [ht]
        exact hsub hl
      · rw [ht]
        exact hl.imp fun m hm => hsub hm
    cases h with
    | ask h => exact keep h (List.Subset.refl _)
    | unlock h => exact keep h (List.subset_cons_self _ _)
    | act h => exact keep h (List.Subset.refl _)
    | wait ok h => exact keep h (List.Subset.refl _)
    | recv h => exact keep h (List.Subset.refl _)
    | own h hfree =>
        refine hs.alone_update (fun l hl => ?_) (fun l hl => ?_)
        · rw [h]
          rcases List.mem_cons.1 hl with hl | hl
          · cases hl
            exact .inr hfree
          · exact .inl hl
        · rw [h]
          obtain ⟨m, hm⟩ := hl
          rcases List.mem_cons.1 hm with hm | hm
          · cases hm
            exact .inr fun u hu => hfree u hu.holds
          · exact .inl ⟨m, hm⟩
    | share h hfree =>
        refine hs.alone_update (fun l hl => ?_) (fun l hl => ?_)
        · rw [h]
          rcases List.mem_cons.1 hl with hl | hl
          · cases hl
          · exact .inl hl
        · rw [h]
          obtain ⟨m, hm⟩ := hl
          rcases List.mem_cons.1 hm with hm | hm
          · cases hm
            exact .inr fun u => (hfree u).1
          · exact .inl ⟨m, hm⟩

/-- No other goroutine holds or wants a lock. -/
def Alone (s : Pool T L C σ β) (t : T) : Prop :=
  ∀ u, u ≠ t → ∀ l, ¬ (s.of u).Holds l ∧ ¬ (s.of u).Asks l

/-- A run gives the state, and makes of one goroutine what is given. -/
def Comes (s : Pool T L C σ β) (t : T) (state : σ) (g : Goroutine L C σ β) : Prop :=
  ∃ ts s', Run Step s ts s' ∧ s'.state = state ∧ s'.of = Function.update s.of t g

theorem Alone.update (h : s.Alone t) (state : σ) (g : Goroutine L C σ β) :
    Alone ⟨state, Function.update s.of t g⟩ t := fun u hu l => by
  change ¬ (Function.update s.of t g u).Holds l ∧ ¬ (Function.update s.of t g u).Asks l
  rw [Function.update_of_ne hu]
  exact h u hu l

/-- One more step at the front. -/
theorem Comes.cons {state state' : σ} {g g' : Goroutine L C σ β}
    (hstep : Step s t ⟨state, Function.update s.of t g⟩)
    (h : Comes ⟨state, Function.update s.of t g⟩ t state' g') : s.Comes t state' g' := by
  obtain ⟨ts, s', hrun, hstate, hof⟩ := h
  exact ⟨t :: ts, s', .cons hstep hrun, hstate, by rw [hof]; exact Function.update_idem ..⟩

/-- **A goroutine that has the pool to itself runs its program**, to what its sections come to. -/
theorem Alone.runs {base held : List (L × Mode)} {S : Set C} {p : Prog L C σ β}
    (h : Obeys o S base held p) (hs : s.Alone t) (hg : s.of t = ⟨p, held, false⟩) :
    s.Comes t (p.sections.run s.state).1 ⟨.done (p.sections.run s.state).2, base, false⟩ := by
  induction h generalizing s with
  | done b => exact ⟨[], s, .nil s, rfl, (Function.update_eq_self_iff.2 hg.symm).symm⟩
  | @lock l m held p hrank hout h ih =>
      -- the lock is above all that is held, and so it is free
      have hmine : ∀ m', (l, m') ∉ held := fun m' hm => lt_irrefl _ (hrank _ hm)
      have hheld : ∀ {a : Bool} {q : Prog L C σ β} {u : T},
          ¬ (Function.update s.of t ⟨q, held, a⟩ u).Holds l := by
        rintro a q u ⟨m', hm⟩
        by_cases hu : u = t
        · rw [hu, Function.update_self] at hm
          exact hmine m' hm
        · rw [Function.update_of_ne hu] at hm
          exact (hs u hu l).1 ⟨m', hm⟩
      have hfree : ∀ u, ¬ (s.of u).Owns l ∧ ¬ (s.of u).Asks l := by
        intro u
        by_cases hu : u = t
        · rw [hu, hg]
          exact ⟨hmine _, nofun⟩
        · exact ⟨fun ho => (hs u hu l).1 ho.holds, (hs u hu l).2⟩
      cases m with
      | shared =>
          exact .cons (.share hg hfree) (ih (hs.update _ _) (Function.update_self ..))
      | exclusive =>
          refine .cons (.ask hg hfree) ?_
          refine .cons (.own (Function.update_self ..) fun u => hheld) ?_
          exact ih ((hs.update _ _).update _ _) (Function.update_self ..)
  | unlock h ih =>
      exact .cons (.unlock hg) (ih (hs.update _ _) (Function.update_self ..))
  | act hl hm ha h ih =>
      exact .cons (.act hg) (ih _ (hs.update _ _) (Function.update_self ..))
  | wait hc h ih =>
      exact .cons (.wait true hg) (ih true (hs.update _ _) (Function.update_self ..))
  | recv h ih => exact .cons (.recv hg) (ih (hs.update _ _) (Function.update_self ..))

/-! ### Progress -/

/-- No goroutine can move, but past a stuck outlet or a receive. -/
def Still (stuck : Set C) (s : Pool T L C σ β) : Prop :=
  ∀ t s', Step s t s' → (s.of t).Stalled stuck

/-- If nothing moves, a goroutine that holds a lock of no stuck outlet wants another such lock,
above it. -/
theorem Sound.holder (hs : s.Sound o S) (hstill : s.Still stuck) {l : L}
    (hl : ∀ c ∈ stuck, l ≠ o.outlet c) (hold : (s.of t).Holds l) :
    ∃ l' m p, (s.of t).prog = .lock l' m p ∧ o.rank l < o.rank l' ∧
      ∀ c ∈ stuck, l' ≠ o.outlet c := by
  have hsound := hs.each t
  obtain ⟨mode, hmem⟩ := hold
  have hmove := hstill t
  generalize hg : s.of t = g at hsound hmem hmove ⊢
  obtain ⟨prog, held, asked⟩ := g
  have hobeys : Obeys o (S t) [] held prog := hsound.obeys
  cases hobeys with
  | done b => cases hmem
  | @lock l' m _ p hrank hout h =>
      refine ⟨l', m, p, rfl, hrank _ hmem, fun c _ hc => ?_⟩
      rw [(hout c hc).1] at hmem
      cases hmem
  | unlock h =>
      obtain rfl : asked = false := hsound.unasked nofun
      rcases hmove _ (.unlock hg) with ⟨_, _, hp, -⟩ | ⟨_, hp⟩ <;> cases hp
  | act hl' hm ha h =>
      obtain rfl : asked = false := hsound.unasked nofun
      rcases hmove _ (.act hg) with ⟨_, _, hp, -⟩ | ⟨_, hp⟩ <;> cases hp
  | @wait c next hS h =>
      obtain rfl : asked = false := hsound.unasked nofun
      rcases hmove _ (.wait true hg) with ⟨_, _, hp, hc⟩ | ⟨_, hp⟩ <;> cases hp
      cases List.mem_singleton.1 hmem
      exact absurd rfl (hl c hc)
  | recv h => cases hmem

/-- If nothing moves, a lock that a goroutine wants is held. -/
theorem Sound.wanted_held (hs : s.Sound o S) (hstill : s.Still stuck) {l : L} {m : Mode}
    {p : Prog L C σ β} (hp : (s.of t).prog = .lock l m p) : ∃ u, (s.of u).Holds l := by
  by_contra hn
  have hfree : ∀ u, ¬ (s.of u).Holds l := fun u hu => hn ⟨u, hu⟩
  -- an announced request would be granted, and so none is announced
  have hunasked : ∀ u, ¬ (s.of u).Asks l := by
    rintro u ⟨hasked, q, hq⟩
    have hu : s.of u = ⟨.lock l .exclusive q, (s.of u).held, true⟩ := by
      rw [← hq, ← hasked]
    exact (hstill u _ (.own hu hfree)).not_lock hq
  have hnone : ∀ u, ¬ (s.of u).Owns l ∧ ¬ (s.of u).Asks l :=
    fun u => ⟨fun hu => hfree u hu.holds, hunasked u⟩
  have hasked : (s.of t).asked = false := by
    by_contra ha
    obtain ⟨l', q, hq⟩ := (hs.each t).asked (by simpa using ha)
    rw [hp] at hq
    cases hq
    exact hunasked t ⟨by simpa using ha, _, hp⟩
  have ht : s.of t = ⟨.lock l m p, (s.of t).held, false⟩ := by rw [← hp, ← hasked]
  cases m with
  | shared => exact (hstill t _ (.share ht hnone)).not_lock hp
  | exclusive => exact (hstill t _ (.ask ht hnone)).not_lock hp

/-- If nothing moves, the locks that are wanted are those of stuck outlets: the holder of any other
would want one above it. -/
theorem Sound.wanted_outlet (hs : s.Sound o S) (hstill : s.Still stuck) {l : L} {m : Mode}
    {p : Prog L C σ β} (hp : (s.of t).prog = .lock l m p) : ∃ c ∈ stuck, l = o.outlet c := by
  by_contra hn
  have hl : ∀ c ∈ stuck, l ≠ o.outlet c := fun c hc he => hn ⟨c, hc, he⟩
  clear hn
  -- by induction on how far the lock is from the top
  induction hd : o.top - o.rank l using Nat.strong_induction_on generalizing t l m p with
  | _ d ih =>
      obtain ⟨u, hu⟩ := hs.wanted_held hstill hp
      obtain ⟨l', m', p', hp', hrank, hl'⟩ := hs.holder hstill hl hu
      have htop := o.rank_le l'
      exact ih (o.top - o.rank l') (by omega) hp' hl' rfl

/-- **Progress.**  If no goroutine can move but past a stuck outlet or a receive, each has ended, is
at a receive without a lock, or is held up by one of these outlets, with no other lock than that of
the outlet. -/
theorem Sound.progress (hs : s.Sound o S) (hstill : s.Still stuck) (t : T) :
    (s.of t).AtRest o (S t ∩ stuck) := by
  have hsound := hs.each t
  have hmove := hstill t
  have hwant : ∀ {l m p}, (s.of t).prog = .lock l m p → ∃ c ∈ stuck, l = o.outlet c :=
    fun h => hs.wanted_outlet hstill h
  generalize hg : s.of t = g at hsound hmove hwant ⊢
  obtain ⟨prog, held, asked⟩ := g
  have hobeys : Obeys o (S t) [] held prog := hsound.obeys
  cases hobeys with
  | done b => exact .inl ⟨⟨b, rfl⟩, rfl⟩
  | @lock l m _ p hrank hout h =>
      obtain ⟨c, hc, rfl⟩ := hwant rfl
      exact .inr (.inr ⟨c, ⟨(hout c rfl).2, hc⟩, .inr ⟨⟨m, p, rfl⟩, (hout c rfl).1⟩⟩)
  | unlock h =>
      obtain rfl : asked = false := hsound.unasked nofun
      rcases hmove _ (.unlock hg) with ⟨_, _, hp, -⟩ | ⟨_, hp⟩ <;> cases hp
  | act hl' hm ha h =>
      obtain rfl : asked = false := hsound.unasked nofun
      rcases hmove _ (.act hg) with ⟨_, _, hp, -⟩ | ⟨_, hp⟩ <;> cases hp
  | @wait c next hS h =>
      obtain rfl : asked = false := hsound.unasked nofun
      rcases hmove _ (.wait true hg) with ⟨_, _, hp, hc⟩ | ⟨_, hp⟩ <;> cases hp
      exact .inr (.inr ⟨c, ⟨hS, hc⟩, .inl ⟨⟨next, rfl⟩, rfl⟩⟩)
  | @recv p h => exact .inr (.inl ⟨⟨p, rfl⟩, rfl⟩)

end Pool

end MiniRedis.Locks
