import Mathlib.Data.List.Induction
import ShiftReduce.Parser.Session
import ShiftReduce.Proofs.Parser.Forest

/-! Handlers observe parses but do not influence them, over whole sessions. What a rule
calls is told by the commands given so far, latest first: the last registration
for the rule, if nothing has taken it away since. -/

namespace ShiftReduce

variable {σ τ : Type}

/-- What is asked for by a call, which of its handler's calls it is apart. -/
def Call.request (call : Call τ) : τ × List Token :=
  (call.tag, call.arguments)

namespace Command

/-- The tag of the last registration for a rule that has not been removed since. The
commands are given latest first. -/
def standing (rule : RuleId) : List (Command τ) → Option τ
  | [] => none
  | .on given tag :: earlier => if given = rule then some tag else standing rule earlier
  | .register given tag :: earlier => if given = rule then some tag else standing rule earlier
  | .unregister removed :: earlier => if removed = rule then none else standing rule earlier
  | .clear :: _ => none
  | .contains _ :: earlier => standing rule earlier
  | .call _ _ :: earlier => standing rule earlier
  | .parse _ :: earlier => standing rule earlier
  | .rule _ :: earlier => standing rule earlier

/-- The handlers after a command, if its tag stands for the handler `act` has for it. -/
def change (act : τ → Handler σ) (handlers : Handlers σ) : Command τ → Handlers σ
  | .on given tag => (handlers.register given (act tag)).2
  | .register given tag => (handlers.register given (act tag)).2
  | .unregister removed => (handlers.unregister removed).2
  | .clear => {}
  | .contains _ => handlers
  | .call _ _ => handlers
  | .parse _ => handlers
  | .rule _ => handlers

def handlers (act : τ → Handler σ) (commands : List (Command τ)) : Handlers σ :=
  commands.foldl (change act) {}

end Command

namespace Handlers

variable {fits : τ → Handler σ → Prop} {history : List (Command τ)} {handlers : Handlers σ}

/-- Each rule has a handler that fits its standing registration, or none if that is so. -/
structure Serve (fits : τ → Handler σ → Prop) (history : List (Command τ))
    (handlers : Handlers σ) : Prop where
  distinct : handlers.rules.Nodup
  fitting : ∀ rule, Option.Rel fits (Command.standing rule history) (handlers.get? rule)

theorem mem_rules_iff (rule : RuleId) :
    rule ∈ handlers.rules ↔ (handlers.get? rule).isSome = true := by
  simp [rules, get?, Keyed.find?]

theorem get?_register_self (rule : RuleId) (handler : Handler σ) :
    (handlers.register rule handler).2.get? rule = some handler := by
  rw [register, get?]
  exact congrArg (Option.map Prod.snd)
    (Keyed.find?_upsert_self Prod.fst rule (rule, handler) (fun _ => (rule, handler))
      (fun _ _ => rfl) rfl handlers.entries)

theorem get?_register_of_ne {rule other : RuleId} (different : other ≠ rule)
    (handler : Handler σ) :
    (handlers.register rule handler).2.get? other = handlers.get? other :=
  congrArg (Option.map Prod.snd)
    (Keyed.find?_upsert_of_ne Prod.fst rule other (rule, handler) (fun _ => (rule, handler))
      (fun _ _ => rfl) rfl different handlers.entries)

theorem Serve.empty (fits : τ → Handler σ → Prop) (history : List (Command τ))
    (gone : ∀ rule, Command.standing rule history = none) : Serve fits history {} := by
  refine ⟨List.nodup_nil, fun rule => ?_⟩
  rw [gone]
  exact Option.Rel.none

theorem Serve.register (serves : Serve fits history handlers) {rule : RuleId} {tag : τ}
    {handler : Handler σ} (fit : fits tag handler) {command : Command τ}
    (given : command = .on rule tag ∨ command = .register rule tag) :
    Serve fits (command :: history) (handlers.register rule handler).2 := by
  refine ⟨Keyed.nodup_upsert (fun _ _ => rfl) rfl serves.distinct, fun other => ?_⟩
  have shape : Command.standing other (command :: history) =
      if rule = other then some tag else Command.standing other history := by
    rcases given with rfl | rfl <;> rfl
  rw [shape]
  by_cases same : rule = other
  · subst same
    rw [if_pos rfl, get?_register_self]
    exact Option.Rel.some fit
  · rw [if_neg same, get?_register_of_ne (fun equal => same equal.symm)]
    exact serves.fitting other

theorem Serve.unregister (serves : Serve fits history handlers) (rule : RuleId) :
    Serve fits (.unregister rule :: history) (handlers.unregister rule).2 := by
  refine ⟨Keyed.nodup_erase rule serves.distinct, fun other => ?_⟩
  simp only [Command.standing]
  by_cases same : rule = other
  · subst same
    have removed : (handlers.unregister rule).2.get? rule = none :=
      congrArg (Option.map Prod.snd) (Keyed.find?_erase_self rule serves.distinct)
    rw [if_pos rfl, removed]
    exact Option.Rel.none
  · have kept : (handlers.unregister rule).2.get? other = handlers.get? other :=
      congrArg (Option.map Prod.snd)
        (Keyed.find?_erase_of_ne (fun equal => same equal.symm) handlers.entries)
    rw [if_neg same, kept]
    exact serves.fitting other

theorem Serve.isSome_get? (serves : Serve fits history handlers) (rule : RuleId) :
    (handlers.get? rule).isSome = (Command.standing rule history).isSome := by
  have fit := serves.fitting rule
  revert fit
  generalize Command.standing rule history = tag, handlers.get? rule = handler
  rintro (_ | _) <;> rfl

theorem Serve.keep (serves : Serve fits history handlers) {command : Command τ}
    (same : ∀ rule, Command.standing rule (command :: history) = Command.standing rule history) :
    Serve fits (command :: history) handlers :=
  ⟨serves.distinct, fun rule => same rule ▸ serves.fitting rule⟩

end Handlers

namespace Command

theorem serve_handlers (act : τ → Handler σ) (commands : List (Command τ)) :
    (handlers act commands).Serve (fun tag handler => handler = act tag) commands.reverse := by
  induction commands using List.reverseRecOn with
  | nil => exact .empty _ _ fun _ => rfl
  | append_singleton before command ih =>
      rw [handlers, List.foldl_append, List.reverse_concat, ← handlers]
      cases command with
      | on given tag => exact ih.register rfl (Or.inl rfl)
      | register given tag => exact ih.register rfl (Or.inr rfl)
      | unregister removed => exact ih.unregister removed
      | clear => exact .empty _ _ fun _ => rfl
      | contains asked => exact ih.keep fun _ => rfl
      | call index arguments => exact ih.keep fun _ => rfl
      | parse input => exact ih.keep fun _ => rfl
      | rule asked => exact ih.keep fun _ => rfl

theorem standing_registered {id : RuleId} {rules : List Rule} (known : id ∈ rules.map Rule.id) :
    standing id (rules.map fun rule => .on rule.id rule.id) = some id := by
  induction rules with
  | nil => cases known
  | cons rule rest ih =>
      simp only [List.map_cons, standing]
      split
      · rename_i same
        rw [same]
      · rename_i different
        exact ih ((List.mem_cons.mp known).resolve_left fun same => different same.symm)

end Command

/-- What reductions call for, each once and in order, if its rule has a registration. -/
def requests (standing : RuleId → Option τ) (reductions : List (Rule × List Token)) :
    List (τ × List Token) :=
  reductions.filterMap fun made => (standing made.1.id).map fun tag => (tag, made.2)

theorem requests_cons (standing : RuleId → Option τ) (made : Rule × List Token)
    (reductions : List (Rule × List Token)) :
    requests standing (made :: reductions) =
      ((standing made.1.id).map fun tag => (tag, made.2)).toList ++
        requests standing reductions := by
  rw [requests, List.filterMap_cons]
  cases standing made.1.id <;> rfl

/-- The handler that was made for a registration with the tag. -/
def Recorder.Records (tag : τ) (handler : Handler (Recorder τ)) : Prop :=
  ∃ place, handler = Recorder.handler place tag

namespace Handlers

variable {history : List (Command τ)}

theorem Serve.record_invoke {handlers : Handlers (Recorder τ)}
    (serves : handlers.Serve Recorder.Records history) (rule : RuleId) (arguments : List Token)
    (recorder : Recorder τ) :
    (handlers.invoke rule arguments recorder).calls.map Call.request =
      recorder.calls.map Call.request ++
        ((Command.standing rule history).map fun tag => (tag, arguments)).toList := by
  have fit := serves.fitting rule
  unfold invoke
  revert fit
  generalize Command.standing rule history = tag, handlers.get? rule = handler
  rintro (⟨place, rfl⟩ | _)
  · simp [Recorder.handler, Call.request]
  · simp

theorem Serve.record_reductions {handlers : Handlers (Recorder τ)}
    (serves : handlers.Serve Recorder.Records history) (reductions : List (Rule × List Token))
    (recorder : Recorder τ) :
    (reductions.foldl (fun current made => handlers.invoke made.1.id made.2 current)
        recorder).calls.map Call.request =
      recorder.calls.map Call.request ++ requests (Command.standing · history) reductions := by
  induction reductions generalizing recorder with
  | nil => simp [requests]
  | cons made rest ih =>
      rw [List.foldl_cons, ih, serves.record_invoke, requests_cons, List.append_assoc]

theorem Serve.perform_reductions {act : τ → Handler σ} {handlers : Handlers σ}
    (serves : handlers.Serve (fun tag handler => handler = act tag) history)
    (reductions : List (Rule × List Token)) (state : σ) :
    reductions.foldl (fun current made => handlers.invoke made.1.id made.2 current) state =
      (requests (Command.standing · history) reductions).foldl
        (fun current request => act request.1 request.2 current) state := by
  induction reductions generalizing state with
  | nil => rfl
  | cons made rest ih =>
      rw [List.foldl_cons, ih, requests_cons, List.foldl_append]
      have fit := serves.fitting made.1.id
      unfold invoke
      revert fit
      generalize Command.standing made.1.id history = tag, handlers.get? made.1.id = handler
      rintro (rfl | _) <;> rfl

end Handlers

/-- The transcript of a run in which the rules have the tags given. -/
structure Transcript.Tells (run : Run) (input : List Token) (standing : RuleId → Option τ)
    (transcript : Transcript τ) : Prop where
  outcome : transcript.outcome = run.outcome
  pulled : transcript.pulled = run.last.pulled input
  calls : transcript.calls.map Call.request = requests standing run.reductions

namespace Session

variable {table : Table} {limit : Nat} {history : List (Command τ)} {session : Session τ}

def after (limit : Nat) (session : Session τ) (commands : List (Command τ)) : Session τ :=
  commands.foldl (fun current command => (current.execute limit command).session) session

theorem executeAll_append (limit : Nat) (session : Session τ) (first second : List (Command τ)) :
    session.executeAll limit (first ++ second) =
      session.executeAll limit first ++ (session.after limit first).executeAll limit second := by
  induction first generalizing session with
  | nil => rfl
  | cons command rest ih =>
      rw [List.cons_append, executeAll, executeAll, ih]
      rfl

/-- What is known of a session after some commands, latest first. -/
structure Follows (table : Table) (history : List (Command τ)) (session : Session τ) : Prop where
  table : session.parser.table = table
  serves : session.parser.handlers.Serve Recorder.Records history
  idle : session.recorder.calls = []

theorem Follows.execute (follows : Follows table history session) (limit : Nat)
    (command : Command τ) :
    Follows table (command :: history) (session.execute limit command).session := by
  obtain ⟨same, serves, idle⟩ := follows
  -- Calls are taken out of the recorder by the command that made them.
  cases command with
  | on given tag => exact ⟨same, serves.register ⟨_, rfl⟩ (Or.inl rfl), idle⟩
  | register given tag => exact ⟨same, serves.register ⟨_, rfl⟩ (Or.inr rfl), idle⟩
  | unregister removed => exact ⟨same, serves.unregister removed, idle⟩
  | clear => exact ⟨same, .empty _ _ fun _ => rfl, idle⟩
  | contains asked => exact ⟨same, serves.keep fun _ => rfl, idle⟩
  | parse input => exact ⟨same, serves.keep fun _ => rfl, rfl⟩
  | rule asked => exact ⟨same, serves.keep fun _ => rfl, idle⟩
  | call index arguments =>
      simp only [Session.execute, Session.call]
      split
      · exact ⟨same, serves.keep fun _ => rfl, idle⟩
      · exact ⟨same, serves.keep fun _ => rfl, rfl⟩

theorem follows_after (table : Table) (limit : Nat) (commands : List (Command τ)) :
    Follows table commands.reverse (after limit { parser := { table } } commands) := by
  induction commands using List.reverseRecOn with
  | nil => exact ⟨rfl, .empty _ _ fun _ => rfl, rfl⟩
  | append_singleton before command ih =>
      rw [after, List.foldl_append, List.reverse_concat, ← after]
      exact ih.execute limit command

theorem Follows.parsed (follows : Follows table history session) (limit : Nat)
    (input : List Token) :
    ∃ transcript, (session.execute limit (.parse input)).reply = .parsed transcript ∧
      transcript.Tells (table.run limit input) input (Command.standing · history) := by
  obtain ⟨rfl, serves, idle⟩ := follows
  refine ⟨_, rfl, ?_, ?_, ?_⟩
  · exact congrArg Run.outcome (session.parser.parse_run limit input session.recorder)
  · exact congrArg (·.last.pulled input)
      (session.parser.parse_run limit input session.recorder)
  · change (session.parser.parse limit input session.recorder).state.calls.map Call.request = _
    rw [session.parser.parse_state, serves.record_reductions, idle]
    rfl

end Session

theorem Table.Steps.known {table : Table} {first last : Configuration} {moves : List Move}
    (steps : table.Steps first moves last) :
    ∀ made ∈ moves.filterMap Move.reduction?, made.1 ∈ table.rules := by
  induction steps with
  | refl => simp
  | move _ transition ih =>
      intro made member
      rw [List.filterMap_append] at member
      rcases List.mem_append.mp member with earlier | last
      · exact ih made earlier
      · cases transition with
        | shift _ => cases last
        | reduce _ reduced =>
            rw [List.mem_singleton.mp last]
            exact (Keyed.find?_some (reduction_eq_ok reduced).1).1

theorem requests_registered (table : Table) (limit : Nat) (input : List Token) :
    requests (Command.standing · (table.rules.map fun rule => .on rule.id rule.id).reverse)
        (table.run limit input).reductions =
      (table.run limit input).reductions.map fun made => (made.1.id, made.2) := by
  rw [requests, ← List.filterMap_eq_map (f := fun made : Rule × List Token => (made.1.id, made.2))]
  refine List.filterMap_congr fun made member => ?_
  -- A rule is reduced only if the table knows it, so it has been registered.
  have known := (Table.runFrom_steps table limit (table.start input)).known made member
  rw [← List.map_reverse, Command.standing_registered]
  · rfl
  · exact List.mem_map_of_mem (List.mem_reverse.mpr known)

namespace Session

/-- In a session a parse is that of a parser without handlers, and each of its reductions
calls the standing registration of its rule once, if there is one. Registering and
removing give back what the rule had; a parse leaves the handlers as they are. -/
theorem executeAll_observed (table : Table) (limit : Nat) (before : List (Command τ)) :
    let opened : Session τ := { parser := { table } }
    let session := opened.after limit before
    let standing := fun rule => Command.standing rule before.reverse
    (∀ command later, opened.executeAll limit (before ++ command :: later) =
      opened.executeAll limit before ++ session.execute limit command ::
        (session.execute limit command).session.executeAll limit later) ∧
    (∀ rule, (rule ∈ session.parser.handlers.rules ↔ (standing rule).isSome = true) ∧
      Option.Rel Recorder.Records (standing rule) (session.parser.handlers.get? rule)) ∧
    (∀ rule tag,
      let response := session.execute limit (.register rule tag)
      response.reply = .flag (standing rule).isSome ∧
        response.session.held = session.held ++ (session.parser.handlers.get? rule).toList) ∧
    (∀ rule,
      let response := session.execute limit (.unregister rule)
      response.reply = .flag (standing rule).isSome ∧
        response.session.held = session.held ++ (session.parser.handlers.get? rule).toList) ∧
    ∀ input,
      let fresh := (Parser.parse ({ table } : Parser Unit) limit input ()).run
      let response := session.execute limit (.parse input)
      response.session.parser = session.parser ∧
      (session.parser.parse limit input session.recorder).run = fresh ∧
      ∃ transcript, response.reply = .parsed transcript ∧
        transcript.Tells fresh input standing ∧
        (∃ everywhere, (execute (after limit { parser := { table } }
              (table.rules.map fun rule => .on rule.id rule.id)) limit (.parse input)).reply =
            .parsed everywhere ∧
          transcript.calls.map Call.request =
            (everywhere.calls.map Call.request).filterMap fun request =>
              (standing request.1).map fun tag => (tag, request.2)) ∧
        ∀ (σ : Type) (act : τ → Handler σ) (state : σ),
          let parse :=
            Parser.parse { table, handlers := Command.handlers act before } limit input state
          parse.run = fresh ∧ parse.state = transcript.calls.foldl
            (fun current call => act call.tag call.arguments current) state := by
  intro opened session standing
  have follows : Follows table before.reverse session := follows_after table limit before
  have returned (rule : RuleId) : (Reply.flag (session.parser.handlers.get? rule).isSome :
      Reply τ) = .flag (standing rule).isSome :=
    congrArg Reply.flag (follows.serves.isSome_get? rule)
  refine ⟨?_, ?_, fun rule _ => ⟨returned rule, rfl⟩, fun rule => ⟨returned rule, rfl⟩, ?_⟩
  · intro command later
    rw [executeAll_append]
    rfl
  · intro rule
    refine ⟨?_, follows.serves.fitting rule⟩
    rw [Handlers.mem_rules_iff, follows.serves.isSome_get?]
  · intro input fresh response
    have run : fresh = table.run limit input := Parser.parse_run _ limit input ()
    obtain ⟨transcript, replied, tells⟩ := follows.parsed limit input
    obtain ⟨everywhere, repliedEverywhere, tellsEverywhere⟩ :=
      (follows_after table limit (table.rules.map fun rule => .on rule.id rule.id)).parsed
        limit input
    rw [run]
    refine ⟨rfl, ?_, transcript, replied, tells, ⟨everywhere, repliedEverywhere, ?_⟩, ?_⟩
    · rw [session.parser.parse_run, follows.table]
    · rw [tells.calls, tellsEverywhere.calls, requests_registered, List.filterMap_map]
      rfl
    · intro σ act state parse
      refine ⟨Parser.parse_run _ limit input state, ?_⟩
      have performed := (Command.serve_handlers act before).perform_reductions
        (table.run limit input).reductions state
      rw [← tells.calls, List.foldl_map] at performed
      exact (Parser.parse_state _ limit input state).trans performed

end Session

end ShiftReduce
