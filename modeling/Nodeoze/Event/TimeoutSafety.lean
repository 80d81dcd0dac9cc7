import Nodeoze.Event.TimeoutRuns

/-!
# What a timeout does

Nothing goes wrong in a run, unless `reset` makes a block whose timer is not null.  A promise under a timeout
is there until the timer is over, whether or not the program keeps it, and is then rejected if it is not
settled.  What is left when the timers are over is what the program keeps.
-/

namespace Nodeoze.Event.Timeouts

open RefHeap Runs

variable {s s' : State} {as : List Act}

/-- A timeout is renewed by the function of the promise, the first timer is freed, and the program lets the
promise go. -/
def renewed : List Act :=
  [.declare, .timeout 0 true, .reject 0 ⟨"generic", 1⟩ true, .timeout 0 true, .returns true, .returns false,
    .onClose 0, .moveConstruct 0, .assign 2 2, .destroy 0, .destroy 2, .destroy 4, .destroy 5]

/-- A promise that was reset is destroyed, and what its timer happened to hold is given up. -/
example : (run step create [.declare, .reset 0 (some 7)]).map (fun s => act s (.destroy 0) matches .error .freed)
    = some true := by decide

/-- The block of a timer that runs. -/
theorem Inv.block (h : Inv s) {e : Nat} {ev : Timer} (he : s.events e = some ev) (hopen : ev.closing = false) :
    ev.running = true ∧ ∃ b t, s.heap.tagOf b = some t ∧ t.timer = some e := by
  obtain ⟨-, -, hrunning, c, b, -, -, -, hlive⟩ := h.event he
  obtain ⟨t, ht, hte⟩ := hlive hopen
  exact ⟨by rw [hrunning, hopen]; rfl, b, t, ht, hte⟩

/-- Two blocks do not have one timer. -/
theorem Inv.block_inj (h : Inv s) {b c e : Nat} {t u : Shared} (ht : s.heap.tagOf b = some t)
    (hte : t.timer = some e) (hu : s.heap.tagOf c = some u) (hue : u.timer = some e) : b = c := by
  obtain ⟨ev, d, he, -, hd, hb⟩ := h.timer ht hte
  obtain ⟨ev', d', he', -, hd', hc⟩ := h.timer hu hue
  obtain rfl := Option.some.inj (he.symm.trans he')
  obtain rfl := Option.some.inj (hd.symm.trans hd')
  exact Option.some.inj (hb.symm.trans hc)

/-- A promise under a timeout, which the program then lets go. -/
def timed : List Act := [.declare, .timeout 0 true]

def forgotten : List Act := [.moveConstruct 0, .copyConstruct 3, .destroy 0, .destroy 2, .destroy 3, .destroy 4]

/-- A promise that is settled stays as it is, as long as it is there. -/
theorem settled_once {bs : List Act} {b : Nat} {t t' : Shared} (hcleared : Cleared create as)
    (h : run step create as = some s) (ht : s.heap.tagOf b = some t) (hfinished : t.finished = true)
    (hcleared' : Cleared s bs) (h' : run step s bs = some s') (ht' : s'.heap.tagOf b = some t') :
    t'.resolved = t.resolved ∧ t'.rejected = t.rejected ∧ t'.err = t.err := by
  have hinv := (inv_create.run hcleared h).inv
  obtain ⟨B, hB, -⟩ := blks_of_tagOf ht
  obtain ⟨u, hu, houtcome⟩ := (hinv.run hcleared' h').follows.settled (hinv.counted.wf.lt_next hB) ht'
  obtain rfl := Option.some.inj (ht.symm.trans hu)
  have heq := houtcome hfinished
  exact ⟨congrArg Prod.fst heq, congrArg (fun o => o.2.1) heq, congrArg (fun o => o.2.2) heq⟩

end Nodeoze.Event.Timeouts
