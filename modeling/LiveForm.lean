import LiveForm.Main
import LiveForm.Session.Computing
import LiveForm.Session.Debouncing
import LiveForm.Session.Draining
import LiveForm.Session.Listening
import LiveForm.Session.Yielding
import LiveForm.Proofs.Clock.Advancing
import LiveForm.Proofs.Clock.Superseding
import LiveForm.Proofs.Clock.Time
import LiveForm.Proofs.Configuration
import LiveForm.Proofs.Engine.Attaching
import LiveForm.Proofs.Engine.Detaching
import LiveForm.Proofs.Engine.Displaying
import LiveForm.Proofs.Engine.Failing
import LiveForm.Proofs.Engine.Flushing
import LiveForm.Proofs.Engine.InStep
import LiveForm.Proofs.Engine.Interleaving
import LiveForm.Proofs.Engine.Keeping
import LiveForm.Proofs.Engine.Showing
import LiveForm.Proofs.Engine.Truthful
import LiveForm.Proofs.Engine.Visible
import LiveForm.Proofs.Expr.Accepting
import LiveForm.Proofs.Expr.Compiling
import LiveForm.Proofs.Expr.Evaluating
import LiveForm.Proofs.Expr.Forgiving
import LiveForm.Proofs.Expr.Literals
import LiveForm.Proofs.Expr.Selecting
import LiveForm.Proofs.Expr.Tokenizing
import LiveForm.Proofs.Form.Document
import LiveForm.Proofs.Form.Resyncing
import LiveForm.Proofs.Graph.Linked
import LiveForm.Proofs.Graph.Order
import LiveForm.Proofs.Graph.Remainder
import LiveForm.Proofs.Graph.Walk
import LiveForm.Proofs.Schedule.Account
import LiveForm.Proofs.Schedule.Enqueueing
import LiveForm.Proofs.Schedule.Raising
import LiveForm.Proofs.Schedule.Trampoline
import LiveForm.Proofs.Value.Shown
import LiveForm.Proofs.Verdict
