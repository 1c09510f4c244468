import MovieDBApp.Core.FormUrl
import MovieDBApp.L2Service.OneRequest
import MovieDBApp.L2Service.SearchQuery
import MovieDBApp.L2Store.CompoundWrite
import MovieDBApp.L2Store.NextPushId
import MovieDBApp.L2Store.RatingIndexes
import MovieDBApp.L3Feed.BadEntry
import MovieDBApp.L3Feed.LastPage
import MovieDBApp.L3Feed.PosterTraffic
import MovieDBApp.L4Screen.Leaving
import MovieDBApp.L4Screen.Paging
import MovieDBApp.L4Screen.Refresh
import MovieDBApp.Core.Retry
import MovieDBApp.L2Store.ConnectionState
import MovieDBApp.L2Store.ConnectionSteps
import MovieDBApp.L2Store.EventCache
import MovieDBApp.L2Store.PushIdOrder
import MovieDBApp.L2Store.PutDelivery
import MovieDBApp.L2Store.PutEffect
import MovieDBApp.L2Store.RepoWrites
import MovieDBApp.L2Store.ShownData
import MovieDBApp.L2Store.DictionaryEnumerator
import MovieDBApp.L2Store.ViewRuns
