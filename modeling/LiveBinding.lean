import LiveBinding.Act
import LiveBinding.Compile
import LiveBinding.Config
import LiveBinding.Debug
import LiveBinding.Directive
import LiveBinding.Document.Basic
import LiveBinding.Document.Edit
import LiveBinding.Document.Lemmas
import LiveBinding.Document.Query
import LiveBinding.Fault
import LiveBinding.Fields
import LiveBinding.Interpolation.Basic
import LiveBinding.Interpolation.Pieces
import LiveBinding.KeyPath
import LiveBinding.Markup.Basic
import LiveBinding.Markup.Token
import LiveBinding.Markup.Tree
import LiveBinding.Methods
import LiveBinding.Number.Basic
import LiveBinding.Number.Layout
import LiveBinding.Number.Shortest
import LiveBinding.Plain
import LiveBinding.Proofs.Act.Compile
import LiveBinding.Proofs.Act.Follows
import LiveBinding.Proofs.Act.InTurn
import LiveBinding.Proofs.Advance.Basic
import LiveBinding.Proofs.Advance.Engine
import LiveBinding.Proofs.Advance.Scene
import LiveBinding.Proofs.Alternation
import LiveBinding.Proofs.Assignment
import LiveBinding.Proofs.Collection
import LiveBinding.Proofs.Dispatch
import LiveBinding.Proofs.Document.Depicts
import LiveBinding.Proofs.Document.Forest
import LiveBinding.Proofs.Document.Keeps
import LiveBinding.Proofs.Document.Links
import LiveBinding.Proofs.Document.Preorder
import LiveBinding.Proofs.Document.Reattach
import LiveBinding.Proofs.Document.Refilled
import LiveBinding.Proofs.Document.Relinks
import LiveBinding.Proofs.Document.Search
import LiveBinding.Proofs.Document.Trees
import LiveBinding.Proofs.Evolution.Basic
import LiveBinding.Proofs.Evolution.Carried
import LiveBinding.Proofs.Evolution.Compile
import LiveBinding.Proofs.Evolution.Construct
import LiveBinding.Proofs.Evolution.Engine
import LiveBinding.Proofs.Evolution.Later
import LiveBinding.Proofs.Evolution.Moments
import LiveBinding.Proofs.Evolution.Owners
import LiveBinding.Proofs.Evolution.Pass
import LiveBinding.Proofs.Evolution.Scene
import LiveBinding.Proofs.Evolution.Sound
import LiveBinding.Proofs.Freshness
import LiveBinding.Proofs.Intact.Basic
import LiveBinding.Proofs.Intact.Engine
import LiveBinding.Proofs.Intact.Scene
import LiveBinding.Proofs.Interpolation.Grammar
import LiveBinding.Proofs.Interpolation.Render
import LiveBinding.Proofs.Interpolation.Template
import LiveBinding.Proofs.Lifetime.Dropped
import LiveBinding.Proofs.Lifetime.Listeners
import LiveBinding.Proofs.Lifetime.Owned
import LiveBinding.Proofs.Lifetime.Silent
import LiveBinding.Proofs.Markup.Canonical
import LiveBinding.Proofs.Markup.Listing
import LiveBinding.Proofs.Markup.RoundTrip
import LiveBinding.Proofs.Markup.Written
import LiveBinding.Proofs.Methods
import LiveBinding.Proofs.Notification
import LiveBinding.Proofs.Permanence
import LiveBinding.Proofs.Proxied
import LiveBinding.Proofs.Refinement.Assign
import LiveBinding.Proofs.Refinement.Build
import LiveBinding.Proofs.Refinement.Course
import LiveBinding.Proofs.Refinement.Holds
import LiveBinding.Proofs.Refinement.Plain
import LiveBinding.Proofs.Spelling
import LiveBinding.Proofs.Store.Addressing
import LiveBinding.Proofs.Store.Closed
import LiveBinding.Proofs.Store.Growth
import LiveBinding.Proofs.Store.Lasting
import LiveBinding.Proofs.Store.Widens
import LiveBinding.Proofs.Subscription
import LiveBinding.Proofs.Template.Compiled
import LiveBinding.Proofs.Template.Consumed
import LiveBinding.Proofs.Template.Failed
import LiveBinding.Proofs.Template.FirstRender
import LiveBinding.Proofs.Template.Gains
import LiveBinding.Proofs.Template.Node
import LiveBinding.Proofs.Template.Order
import LiveBinding.Proofs.Template.Root
import LiveBinding.Proofs.Template.Shown
import LiveBinding.Proofs.Template.Walk
import LiveBinding.Proofs.Termination.Nesting
import LiveBinding.Proofs.Termination.Node
import LiveBinding.Proofs.Termination.Walk
import LiveBinding.Proofs.Typing
import LiveBinding.Proofs.View.Binding
import LiveBinding.Proofs.View.Compiled
import LiveBinding.Proofs.View.Current
import LiveBinding.Proofs.View.Gate
import LiveBinding.Proofs.View.Gated
import LiveBinding.Proofs.View.Place
import LiveBinding.Proofs.View.Ungated
import LiveBinding.Reactive.Dispatch
import LiveBinding.Reactive.Effect
import LiveBinding.Reactive.Notify
import LiveBinding.Reactive.Read
import LiveBinding.Reactive.Render
import LiveBinding.Reactive.Write
import LiveBinding.Scene.Perform
import LiveBinding.Scene.Reference
import LiveBinding.Scene.Run
import LiveBinding.Scene.Step
import LiveBinding.Store.Basic
import LiveBinding.Store.Lemmas
import LiveBinding.Store.Path
import LiveBinding.Store.Value
import LiveBinding.Text.Blank
import LiveBinding.ViewModel
import LiveBinding.World
