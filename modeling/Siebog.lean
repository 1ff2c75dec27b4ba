import Siebog.Lib.Run
import Siebog.DNars.Graph.Store
import Siebog.DNars.Graph.StatementAPI
import Siebog.Lib.Ledger
import Siebog.Lib.Occupancy
import Siebog.DNars.Graph.Forms
import Siebog.DNars.Graph.Closure
import Siebog.DNars.Base.Evidence
import Siebog.DNars.Graph.KnowledgeBase
import Siebog.DNars.Base.StatementParser
import Siebog.DNars.Base.RoundTrip
import Siebog.DNars.Base.Doubles
import Siebog.DNars.Graph.Uniqueness
import Siebog.DNars.Inference.Forward
import Siebog.DNars.Inference.Table
import Siebog.DNars.Inference.Similarity
import Siebog.DNars.Inference.TruthRange
import Siebog.DNars.Inference.Resolution
import Siebog.DNars.Inference.Backward
import Siebog.Lib.Lockstep
import Siebog.Interaction.BarrierBean
import Siebog.Interaction.BarrierSafety
import Siebog.Jasonee.ExecutionControl
import Siebog.Jasonee.LockStep
import Siebog.Interaction.ContractNet
import Siebog.Interaction.Outcome
import Siebog.Interaction.Answers
import Siebog.Interaction.Rounds
import Siebog.Radigost.Delivery
import Siebog.Jasonee.UserEnvironment
import Siebog.Jasonee.Perception
import Siebog.Lib.Json
import Siebog.Lib.JsonReader
import Siebog.Lib.Form
import Siebog.Radigost.Payload
import Siebog.DNars.Base.Confidence
import Siebog.DNars.Base.Infix
import Siebog.Interaction.Blackboard
import Siebog.Interaction.BlackboardAwards
import Siebog.Interaction.Participant
import Siebog.DNars.Inference.Validity
import Siebog.DNars.Graph.Importer
import Siebog.DNars.Events.EventManager
import Siebog.DNars.Events.LockOrder
import Siebog.DNars.Events.Batching
import Siebog.Agents.AgentClass
import Siebog.Agents.AID
import Siebog.Agents.AgentManager
import Siebog.DNars.Events.Observers
import Siebog.Interaction.FailureHandling
import Siebog.Interaction.MessageManager
import Siebog.Interaction.TimeoutSignals
import Siebog.Radigost.Routing
import Siebog.DNars.Inference.Answers
import Siebog.Agents.AgentInitArgs
import Siebog.Agents.JndiTreeParser
import Siebog.Cluster.NodeSelector
import Siebog.DNars.Graph.TermStorage
import Siebog.DNars.Inference.Enumeration
import Siebog.Lib.Rotation
import Siebog.DNars.Graph.Converter
import Siebog.Interaction.MessageText
import Siebog.Aco.Map
import Siebog.Aco.Ant
import Siebog.Lib.Walk
import Siebog.Aco.Tour
import Siebog.Aco.Colony
import Siebog.Lib.Barrier
import Siebog.Pso.Swarm
import Siebog.Pso.Iterations
import Siebog.Pso.Search
import Siebog.DNars.Inference.Questions
import Siebog.DNarsWeb.EventHandler
import Siebog.Jasonee.Actions
import Siebog.Aco.BestTour
import Siebog.Jasonee.JasonMessage
import Siebog.Starter.NodeConfig
import Siebog.Interaction.Platform
import Siebog.DNarsWeb.Resolver
import Siebog.Agents.CountPrimes
import Siebog.Lib.Least
import Siebog.Interaction.BlackboardExample
import Siebog.Radigost.WebClientSocket
