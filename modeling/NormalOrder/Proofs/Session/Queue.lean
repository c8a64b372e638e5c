import NormalOrder.Proofs.Session.Failures

/-!
# The queue of a session

Lines are queued in the order in which they are added, if each has a number of its own, and a line that
makes no term is not queued (`served_of_adds`). A run evaluates the queued lines in this order, each in the
state that the one before it has left. If all of them have values, the values are the results and nothing
waits any more (`run_of_values`); if one fails, the values of the lines before it are the results, and the
lines after it wait (`run_of_error`).

So in every history of lines that are added and of runs, whatever they come to, the lines that were
evaluated are followed by those that wait, and both together are the lines that were queued, each of them
once (`exists_done`). A run of a queue that is not empty evaluates a line at least, so nothing waits any
more after as many runs as there were lines (`queue_of_runs`).
-/

namespace NormalOrder

/-- Taking out the key that is listed first leaves the other pairs. -/
theorem OrderedMap.entries_erase_of_cons {α β : Type} [DecidableEq α] {m : OrderedMap α β} {k : α} {v : β}
    {rest : List (α × β)} (h : m.entries = (k, v) :: rest) : (m.erase k).entries = rest := by
  have hnodup := m.nodup
  rw [h, List.map_cons, List.nodup_cons] at hnodup
  show m.entries.filter (fun e => decide (e.1 ≠ k)) = rest
  rw [h, List.filter_cons_of_neg (by simp), List.filter_eq_self]
  intro e he
  have hmem : e.1 ∈ rest.map Prod.fst := List.mem_map_of_mem he
  exact decide_eq_true fun hek => hnodup.1 (hek ▸ hmem)

namespace Session

variable {s s' s'' : Session} {bound : Nat} {m : Evaluator Empty}
  {es es' before rest done done' : List (Int × Queued)} {num : Int} {q : Queued} {line : String}
  {vs : List Expr}

/-! ## Lines one after another -/

/-- What queued lines come to that are evaluated one after another, each in the state that the one before
it has left. -/
def outcomes (bound : Nat) (m : Evaluator Empty) :
    List (Int × Queued) → List (Except EvalError Expr)
  | [] => []
  | (_, q) :: es =>
    let run := m.evaluate bound q.expression
    run.outcome :: outcomes bound run.state es

/-- The state that queued lines leave that are evaluated one after another. -/
def stateAfter (bound : Nat) (m : Evaluator Empty) (es : List (Int × Queued)) : Evaluator Empty :=
  es.foldl (fun m e => (m.evaluate bound e.2.expression).state) m

/-- Two lists of lines come to what the first comes to, and then the second. -/
theorem outcomes_append (bound : Nat) (m : Evaluator Empty) (es es' : List (Int × Queued)) :
    outcomes bound m (es ++ es')
      = outcomes bound m es ++ outcomes bound (stateAfter bound m es) es' := by
  induction es generalizing m with
  | nil => rfl
  | cons e es ih => exact congrArg (_ :: ·) (ih _)

/-- Two lists of lines leave the state that the second leaves after the first. -/
theorem stateAfter_append (bound : Nat) (m : Evaluator Empty) (es es' : List (Int × Queued)) :
    stateAfter bound m (es ++ es') = stateAfter bound (stateAfter bound m es) es' :=
  List.foldl_append

/-- Lines that are evaluated one after another all have values, or there is a first that fails. -/
theorem exists_first_error (bound : Nat) (m : Evaluator Empty) (es : List (Int × Queued)) :
    (∃ vs : List Expr, outcomes bound m es = vs.map .ok) ∨
      ∃ before num q rest e, ∃ vs : List Expr, es = before ++ (num, q) :: rest ∧
        outcomes bound m before = vs.map .ok ∧
        ((stateAfter bound m before).evaluate bound q.expression).outcome = .error e := by
  induction es generalizing m with
  | nil => exact .inl ⟨[], rfl⟩
  | cons first es ih =>
    obtain ⟨num, q⟩ := first
    cases hout : (m.evaluate bound q.expression).outcome with
    | error e => exact .inr ⟨[], num, q, es, e, [], rfl, rfl, hout⟩
    | ok v =>
      have hcons : ∀ es', outcomes bound m ((num, q) :: es')
          = .ok v :: outcomes bound (m.evaluate bound q.expression).state es' := by
        intro es'
        rw [outcomes, hout]
      rcases ih (m.evaluate bound q.expression).state with
        ⟨vs, hvs⟩ | ⟨before, num', q', rest, e, vs, rfl, hvs, he⟩
      · exact .inl ⟨v :: vs, by rw [hcons, hvs, List.map_cons]⟩
      · exact .inr ⟨(num, q) :: before, num', q', rest, e, v :: vs, rfl,
          by rw [hcons, hvs, List.map_cons], he⟩

/-! ## Runs -/

/-- Lines that have values are taken out of the front of the queue, and leave their values. -/
theorem runLines_of_values (hq : s.queue.entries = es ++ rest)
    (h : outcomes bound s.evaluator es = vs.map .ok) :
    ∃ r queue, s.runLines bound es
        = (.ok (), { s with
            reporter := r
            evaluator := stateAfter bound s.evaluator es
            queue
            results := s.results ++ vs }) ∧
      queue.entries = rest := by
  induction es generalizing s vs with
  | nil =>
    obtain rfl : vs = [] := List.map_eq_nil_iff.1 h.symm
    exact ⟨s.reporter, s.queue, by rw [runLines, List.append_nil]; rfl, hq⟩
  | cons e es ih =>
    obtain ⟨num, q⟩ := e
    cases vs with
    | nil => cases h
    | cons v vs =>
      obtain ⟨hv, hvs⟩ := List.cons_eq_cons.1 h
      obtain ⟨r, hr, -⟩ := runLine_of_ok hv num
      obtain ⟨r', queue, hrun, hqueue⟩ := ih (s := (s.runLine bound num q).2)
        (by rw [hr]; exact OrderedMap.entries_erase_of_cons hq) (by rw [hr]; exact hvs)
      rw [hr] at hrun
      refine ⟨r', queue, ?_, hqueue⟩
      rw [runLines, hr]
      simp only [hrun, List.append_assoc]
      rfl

/-- Lines that have values are run first, and then the lines after them. -/
theorem runLines_append (h : s.runLines bound es = (.ok (), s')) (es' : List (Int × Queued)) :
    s.runLines bound (es ++ es') = s'.runLines bound es' := by
  induction es generalizing s with
  | nil =>
    cases h
    rfl
  | cons e es ih =>
    obtain ⟨num, q⟩ := e
    rw [runLines] at h
    rw [List.cons_append, runLines]
    split at h
    · exact ih h
    · next hnot => exact (hnot s' h).elim

/-- If all queued lines have values, a run leaves the values in their order, and nothing waits any more. -/
theorem run_of_values (h : outcomes bound s.evaluator s.queue.entries = vs.map .ok) :
    ∃ r, s.run bound
      = (.ok (), { s with
          reporter := r
          evaluator := stateAfter bound s.evaluator s.queue.entries
          queue := .empty
          results := s.results ++ vs }) := by
  obtain ⟨r, queue, hrun, hqueue⟩ := runLines_of_values (List.append_nil _).symm h
  obtain rfl : queue = .empty := OrderedMap.eq_of_entries hqueue
  exact ⟨r, hrun⟩

/-- If a queued line fails and those before it have values, a run fails as the line does. It leaves the
values of the lines before it, and the lines after it wait. -/
theorem run_of_error {e : EvalError} (hq : s.queue.entries = before ++ (num, q) :: rest)
    (hvs : outcomes bound s.evaluator before = vs.map .ok)
    (he : ((stateAfter bound s.evaluator before).evaluate bound q.expression).outcome = .error e) :
    ∃ r queue, s.run bound
        = (.error ((Failure.ofEvalError e).locate q.line), { s with
            reporter := r
            evaluator := stateAfter bound s.evaluator (before ++ [(num, q)])
            queue
            results := s.results ++ vs }) ∧
      queue.entries = rest := by
  obtain ⟨r, queue, hrun, hqueue⟩ := runLines_of_values hq hvs
  let failing : Session := { s with
    reporter := r
    evaluator := stateAfter bound s.evaluator before
    queue
    results := s.results ++ vs }
  obtain ⟨r', hr', -⟩ := runLine_of_error (s := failing) he num
  refine ⟨r', queue.erase num, ?_, OrderedMap.entries_erase_of_cons hqueue⟩
  rw [run, hq, runLines_append hrun, runLines, hr', stateAfter_append]
  rfl

/-! ## What sessions have done -/

/-- From `s` to `s'` the lines `done` were evaluated, one after another, and the values of those that have
one were added to the results. -/
structure Works (bound : Nat) (s : Session) (done : List (Int × Queued)) (s' : Session) : Prop where
  evaluator : s'.evaluator = stateAfter bound s.evaluator done
  results : s'.results = s.results ++ (outcomes bound s.evaluator done).filterMap Except.toOption

/-- A session that evaluates no line keeps its results and its evaluator. -/
theorem works_nil (hm : s'.evaluator = s.evaluator) (hr : s'.results = s.results) :
    Works bound s [] s' :=
  ⟨hm, hr.trans (List.append_nil _).symm⟩

/-- Lines are evaluated after those that were evaluated before. -/
theorem Works.trans (h : Works bound s done s') (h' : Works bound s' done' s'') :
    Works bound s (done ++ done') s'' := by
  refine ⟨?_, ?_⟩
  · rw [h'.evaluator, h.evaluator, stateAfter_append]
  · rw [h'.results, h.evaluator, h.results, outcomes_append, List.filterMap_append,
      List.append_assoc]

/-- The values of lines that all have values. -/
theorem filterMap_toOption (vs : List Expr) :
    (vs.map (Except.ok (ε := EvalError))).filterMap Except.toOption = vs := by
  rw [List.filterMap_map]
  exact List.filterMap_some

/-- A run evaluates the first lines of the queue, at least one if there is one, and the others wait. -/
theorem works_run (bound : Nat) (s : Session) :
    ∃ done, s.queue.entries = done ++ (s.run bound).2.queue.entries ∧
      Works bound s done (s.run bound).2 ∧ (s.queue.entries ≠ [] → done ≠ []) := by
  rcases exists_first_error bound s.evaluator s.queue.entries with
    ⟨vs, hvs⟩ | ⟨before, num, q, rest, e, vs, hq, hvs, he⟩
  · obtain ⟨r, hr⟩ := run_of_values hvs
    rw [hr]
    refine ⟨s.queue.entries, (List.append_nil _).symm, ⟨rfl, ?_⟩, id⟩
    rw [hvs, filterMap_toOption]
  · obtain ⟨r, queue, hr, hqueue⟩ := run_of_error hq hvs he
    rw [hr]
    refine ⟨before ++ [(num, q)], by rw [hq, hqueue, List.append_assoc]; rfl, ⟨rfl, ?_⟩,
      fun _ => List.append_ne_nil_of_right_ne_nil _ (List.cons_ne_nil _ _)⟩
    have hlast : outcomes bound (stateAfter bound s.evaluator before) [(num, q)] = [.error e] := by
      rw [outcomes, he]
      rfl
    rw [outcomes_append, hlast, hvs, List.filterMap_append, filterMap_toOption]
    exact congrArg (s.results ++ ·) (List.append_nil _).symm

/-! ## Histories -/

/-- What may be asked of a session: to add a line with its number, and to run. -/
inductive Request where
  | add (line : String) (num : Int)
  | run

namespace Request

/-- What a request queues: a line that makes a term. -/
def queued? : Request → Option (Int × Queued)
  | add line num =>
    match Term.parse line with
    | .ok t => some (num, ⟨line, t⟩)
    | .error _ => none
  | run => none

/-- Whether a request adds a line. -/
def IsAdd : Request → Prop
  | add _ _ => True
  | run => False

end Request

/-- The session after a request, whether it failed or not. -/
def serve (bound : Nat) (s : Session) : Request → Session
  | .add line num => (s.add line num).2
  | .run => (s.run bound).2

/-- The session after requests, whether they failed or not. -/
def served (bound : Nat) (s : Session) (rs : List Request) : Session := rs.foldl (serve bound) s

/-- A line that makes no term is not queued: nothing but the reporter is changed. -/
theorem add_of_error {e : SourceError} (h : (Term.parse line : Except SourceError Expr) = .error e)
    (s : Session) (num : Int) :
    ∃ r, s.add line num = (.error (.ofSourceError line e), { s with reporter := r }) := by
  rw [add, h]
  exact ⟨_, rfl⟩

/-- A line with a new number is queued last, if it makes a term. The results and the evaluator stay. -/
theorem serve_add (h : ∀ e ∈ (Request.add line num).queued?, e.1 ∉ s.queue.keys) (bound : Nat) :
    ∃ r queue, s.serve bound (.add line num) = { s with reporter := r, queue } ∧
      queue.entries = s.queue.entries ++ (Request.add line num).queued?.toList := by
  cases ht : (Term.parse line : Except SourceError Expr) with
  | error e =>
    obtain ⟨r, hr⟩ := add_of_error ht s num
    refine ⟨r, s.queue, by rw [serve, hr], ?_⟩
    rw [Request.queued?, ht, Option.toList_none, List.append_nil]
  | ok t =>
    obtain ⟨r, hr, -⟩ := add_of_parse ht s num
    have hentry : (Request.add line num).queued? = some (num, ⟨line, t⟩) := by
      rw [Request.queued?, ht]
    refine ⟨r, s.queue.put num ⟨line, t⟩, by rw [serve, hr], ?_⟩
    rw [OrderedMap.entries_put (h _ hentry), hentry, Option.toList_some]

/-- What requests queue, in their order. -/
def entered (rs : List Request) : List (Int × Queued) := rs.filterMap Request.queued?

variable {rs : List Request}

/-- A request to add a line with a new number leaves the numbers of the lines still to come new. -/
theorem serve_add_entered (h : ((s.queue.entries ++ entered (.add line num :: rs)).map Prod.fst).Nodup)
    (bound : Nat) :
    ∃ r queue, s.serve bound (.add line num) = { s with reporter := r, queue } ∧
      s.queue.entries ++ entered (.add line num :: rs) = queue.entries ++ entered rs := by
  have hentered : entered (.add line num :: rs)
      = (Request.add line num).queued?.toList ++ entered rs := by
    rw [entered, List.filterMap_cons]
    cases (Request.add line num).queued? with
    | none | some => rfl
  rw [hentered, ← List.append_assoc] at h ⊢
  have hnew : ∀ e ∈ (Request.add line num).queued?, e.1 ∉ s.queue.keys := by
    intro e he hmem
    rw [List.map_append, List.map_append, List.nodup_append, List.nodup_append] at h
    exact h.1.2.2 e.1 hmem e.1 (List.mem_map_of_mem (Option.mem_toList.2 he)) rfl
  obtain ⟨r, queue, hserve, hqueue⟩ := serve_add hnew bound
  exact ⟨r, queue, hserve, by rw [hqueue]⟩

/-- Lines with new numbers are queued in the order in which they are added, without those that make no
term. The results and the evaluator stay. -/
theorem served_of_adds (hrs : ∀ r ∈ rs, r.IsAdd)
    (h : ((s.queue.entries ++ entered rs).map Prod.fst).Nodup) (bound : Nat) :
    ∃ r queue, s.served bound rs = { s with reporter := r, queue } ∧
      queue.entries = s.queue.entries ++ entered rs := by
  induction rs generalizing s with
  | nil => exact ⟨s.reporter, s.queue, rfl, (List.append_nil _).symm⟩
  | cons request rs ih =>
    obtain ⟨hadd, hrest⟩ := List.forall_mem_cons.1 hrs
    cases request with
    | run => exact hadd.elim
    | add line num =>
      obtain ⟨r, queue, hserve, hentries⟩ := serve_add_entered h bound
      rw [hentries] at h ⊢
      obtain ⟨r', queue', hserved, hqueue⟩ := ih (s := { s with reporter := r, queue }) hrest h
      refine ⟨r', queue', ?_, hqueue⟩
      rw [served, List.foldl_cons, hserve]
      exact hserved

/-- After requests with new numbers the lines that were evaluated are followed by those that wait, and both
together are the lines that were queued. -/
theorem exists_done (h : ((s.queue.entries ++ entered rs).map Prod.fst).Nodup) (bound : Nat) :
    ∃ done, s.queue.entries ++ entered rs = done ++ (s.served bound rs).queue.entries ∧
      Works bound s done (s.served bound rs) := by
  induction rs generalizing s with
  | nil => exact ⟨[], List.append_nil _, works_nil rfl rfl⟩
  | cons request rs ih =>
    cases request with
    | add line num =>
      obtain ⟨r, queue, hserve, hentries⟩ := serve_add_entered h bound
      rw [hentries] at h ⊢
      rw [served, List.foldl_cons, hserve]
      obtain ⟨done, hdone, hworks⟩ := ih (s := { s with reporter := r, queue }) h
      exact ⟨done, hdone, hworks.evaluator, hworks.results⟩
    | run =>
      obtain ⟨done, hdone, hworks, -⟩ := works_run bound s
      have hentered : entered (.run :: rs) = entered rs := rfl
      rw [hentered, hdone, List.append_assoc] at h ⊢
      rw [List.map_append, List.nodup_append] at h
      obtain ⟨done', hdone', hworks'⟩ := ih (s := (s.run bound).2) h.2.1
      refine ⟨done ++ done', ?_, hworks.trans hworks'⟩
      rw [hdone', List.append_assoc]
      rfl

/-- Nothing waits any more after as many runs as lines have been waiting. -/
theorem queue_of_runs {k : Nat} (h : s.queue.entries.length ≤ k) (bound : Nat) :
    (s.served bound (List.replicate k .run)).queue = .empty := by
  induction k generalizing s with
  | zero => exact OrderedMap.eq_of_entries (List.length_eq_zero_iff.1 (Nat.le_zero.1 h))
  | succ k ih =>
    obtain ⟨done, hdone, -, hsome⟩ := works_run bound s
    refine ih (s := (s.run bound).2) ?_
    by_cases hempty : s.queue.entries = []
    · rw [hempty] at hdone
      rw [(List.append_eq_nil_iff.1 hdone.symm).2]
      exact Nat.zero_le k
    · have hpos := List.length_pos_iff.2 (hsome hempty)
      have hlen := congrArg List.length hdone
      rw [List.length_append] at hlen
      omega

/-- In every session. A line that makes no term fails to be added, and changes nothing but the reporter.
Lines with new numbers that differ from one another are queued in the order in which they are added. A run
evaluates the lines of the queue in their order. If all of them have values, these are added to the
results, and the queue is empty. If one fails and those before it have values, then the run fails as it
does, the values of those before it are added to the results, the lines after it wait in their order, and
the evaluator is as the lines up to it have left it. After any series of requests with such numbers,
whatever they come to, the lines that were queued are those that have been evaluated, one after another,
and then those that wait. After as many more runs as lines wait, the queue is empty, and each line that was
queued has been evaluated once. -/
theorem evaluates_queue (bound : Nat) (s : Session) :
    (∀ line num e, (Term.parse line : Except SourceError Expr) = .error e →
      ∃ r, s.add line num = (.error (.ofSourceError line e), { s with reporter := r })) ∧
    (∀ rs : List Request, (∀ r ∈ rs, r.IsAdd) →
      ((s.queue.entries ++ entered rs).map Prod.fst).Nodup →
      ∃ r queue, s.served bound rs = { s with reporter := r, queue } ∧
        queue.entries = s.queue.entries ++ entered rs) ∧
    (∀ vs : List Expr, outcomes bound s.evaluator s.queue.entries = vs.map .ok →
      ∃ r, s.run bound
        = (.ok (), { s with
            reporter := r
            evaluator := stateAfter bound s.evaluator s.queue.entries
            queue := .empty
            results := s.results ++ vs })) ∧
    (∀ before num q rest e, ∀ vs : List Expr, s.queue.entries = before ++ (num, q) :: rest →
      outcomes bound s.evaluator before = vs.map .ok →
      ((stateAfter bound s.evaluator before).evaluate bound q.expression).outcome = .error e →
      ∃ r queue, s.run bound
          = (.error ((Failure.ofEvalError e).locate q.line), { s with
              reporter := r
              evaluator := stateAfter bound s.evaluator (before ++ [(num, q)])
              queue
              results := s.results ++ vs }) ∧
        queue.entries = rest) ∧
    ∀ rs : List Request, ((s.queue.entries ++ entered rs).map Prod.fst).Nodup →
      (∃ done, s.queue.entries ++ entered rs = done ++ (s.served bound rs).queue.entries ∧
        Works bound s done (s.served bound rs)) ∧
      ∀ k, (s.served bound rs).queue.entries.length ≤ k →
        (s.served bound (rs ++ List.replicate k .run)).queue = .empty ∧
          Works bound s (s.queue.entries ++ entered rs)
            (s.served bound (rs ++ List.replicate k .run)) := by
  refine ⟨fun line num e h => add_of_error h s num, fun rs hrs h => served_of_adds hrs h bound,
    fun vs h => run_of_values h, fun before num q rest e vs hq hvs he => run_of_error hq hvs he,
    fun rs h => ⟨exists_done h bound, fun k hk => ?_⟩⟩
  have hempty : (s.served bound (rs ++ List.replicate k .run)).queue = .empty := by
    rw [served, List.foldl_append]
    exact queue_of_runs hk bound
  have hentered : entered (rs ++ List.replicate k .run) = entered rs := by
    rw [entered, List.filterMap_append, List.filterMap_replicate_of_none rfl, List.append_nil]
    rfl
  have hnodup := h
  rw [← hentered] at hnodup
  obtain ⟨done, hdone, hworks⟩ := exists_done hnodup bound
  rw [hempty, hentered] at hdone
  obtain rfl : s.queue.entries ++ entered rs = done := hdone.trans (List.append_nil done)
  exact ⟨hempty, hworks⟩

/-- A run stops at the reference to `B`, which has no value, and `)` is no term. Two more runs, at most,
evaluate the line that has waited since then and the line that was added after it. -/
theorem evaluates_queue_resumed :
    ∃ (s : Session) (rs : List Request),
      rs = [.add "A <- x" 1, .add "B" 2, .add ")" 3, .add "A" 5, .run, .add "y" 4] ∧
      ((s.queue.entries ++ entered rs).map Prod.fst).Nodup ∧
      (s.served 2 rs).queue.keys = [5, 4] ∧ (s.served 2 rs).results = [.var "x"] ∧
      (s.served 2 (rs ++ List.replicate 2 .run)).queue = .empty ∧
      (s.served 2 (rs ++ List.replicate 2 .run)).results = [.var "x", .var "x", .var "y"] := by
  let s : Session := ⟨typedPath, {}, .blank {}, .empty, []⟩
  let rs : List Request :=
    [.add "A <- x" 1, .add "B" 2, .add ")" 3, .add "A" 5, .run, .add "y" 4]
  have hnew : ((s.queue.entries ++ entered rs).map Prod.fst).Nodup := by decide +kernel
  have hkeys : (s.served 2 rs).queue.keys = [5, 4] := by decide +kernel
  have hresults : (s.served 2 rs).results = [.var "x"] := by decide +kernel
  have hwaiting : (s.served 2 rs).queue.entries.length ≤ 2 := by decide +kernel
  obtain ⟨-, -, -, -, hrequests⟩ := evaluates_queue 2 s
  obtain ⟨hempty, hworks⟩ := (hrequests rs hnew).2 2 hwaiting
  refine ⟨s, rs, rfl, hnew, hkeys, hresults, hempty, ?_⟩
  rw [hworks.results]
  decide +kernel

end Session

end NormalOrder
