import SakhtarWg.Text
import SakhtarWg.Netip
import SakhtarWg.Prefix
import SakhtarWg.Iptables
import SakhtarWg.Failover
import SakhtarWg.Fallible
import SakhtarWg.Names
import SakhtarWg.FirewallPlan
import SakhtarWg.GatewayPolicy
import SakhtarWg.GatewayVerdict
import SakhtarWg.KernelPlan
import SakhtarWg.EgressGuard
import SakhtarWg.DnsTypes
import SakhtarWg.DnsCache
import SakhtarWg.FiniteMap
import SakhtarWg.DnsCapacity
import SakhtarWg.DnsMoves
import SakhtarWg.DnsFlights
import SakhtarWg.DnsCalls
import SakhtarWg.DnsAnswers
import SakhtarWg.DnsStale
import SakhtarWg.DnsForget
import SakhtarWg.DnsLastGood
import SakhtarWg.HostName
import SakhtarWg.Cidr
import SakhtarWg.Program
import SakhtarWg.ProxyPolicy
import SakhtarWg.ProxySelect
import SakhtarWg.SelectOrder
import SakhtarWg.ProxyDial
import SakhtarWg.DialSafety
import SakhtarWg.DialRuns
import SakhtarWg.DialBudget
import SakhtarWg.DialOutcome
import SakhtarWg.Pipe
import SakhtarWg.SourceAcl
import SakhtarWg.Config
import SakhtarWg.ConfigCheck
import SakhtarWg.ConfigValid
import SakhtarWg.Machine
import SakhtarWg.GatewayConfig
import SakhtarWg.RouteUpdater
import SakhtarWg.MainLoop
import SakhtarWg.TunnelResolver
import SakhtarWg.MarkedDial
import SakhtarWg.Health
import SakhtarWg.GroupIndependence
import SakhtarWg.EgressNames
import SakhtarWg.RouteRefresh
import SakhtarWg.Exec
import SakhtarWg.Inventory
import SakhtarWg.Netfilter
import SakhtarWg.Host
import SakhtarWg.Planner
import SakhtarWg.PlanConverge
import SakhtarWg.Wg
import SakhtarWg.Chains
import SakhtarWg.Reload
import SakhtarWg.HostLogic
import SakhtarWg.HostEval
import SakhtarWg.WgReads
import SakhtarWg.Plumbing
import SakhtarWg.DryRun
import SakhtarWg.Survey
import SakhtarWg.TunnelUp
import SakhtarWg.EmptyPlan
import SakhtarWg.RuleArguments
import SakhtarWg.ChainOwnership
import SakhtarWg.ChainInterruption
import SakhtarWg.CompiledRules
import SakhtarWg.FirewallDrift
import SakhtarWg.JumpOrder
import SakhtarWg.AddrText
import SakhtarWg.Admission
import SakhtarWg.LabelSuffix
import SakhtarWg.HostRouting
import SakhtarWg.HostSyntax
import SakhtarWg.HostHeader
import SakhtarWg.ProbeReload
import SakhtarWg.Blocks
import SakhtarWg.InPlace
import SakhtarWg.Aggregate
import SakhtarWg.SourceText
import SakhtarWg.Streams
import SakhtarWg.Sniff
import SakhtarWg.HeaderLimit
import SakhtarWg.UpdaterRuns
import SakhtarWg.PfMirror
import SakhtarWg.TunnelFallback
import SakhtarWg.StoredDevice
import SakhtarWg.Scan
import SakhtarWg.Redaction
import SakhtarWg.RedactionPasses
import SakhtarWg.RedactionForms
import SakhtarWg.RestoreText
import SakhtarWg.DnsSweep
import SakhtarWg.Counters
import SakhtarWg.EgressMetrics
import SakhtarWg.MetricSummary
import SakhtarWg.Registry
import SakhtarWg.EgressSeries
import SakhtarWg.RegistryNames
import SakhtarWg.Scrape
import SakhtarWg.GuardedEgress
import SakhtarWg.RelayRuns
